import EventCore.ReconcileForks

/-! How long a fork stays reported: every transaction with all tips as parents descends from
all of its heads, so the first ordinary append after a merge already counts as its resolution. -/
namespace EventCore
namespace FileStore
open GraphSearch

variable {Any Raw Value E ι : Type}

/-- Detection and status report a fork on the stream of `fork` with all its transactions. -/
def Reported (store : FileEventStore Value) (fork : Fork) : Prop :=
  (∃ forks, store.detectForks = .ok forks ∧ ∃ g ∈ forks, g.streamId = fork.streamId ∧
    ∀ id ∈ fork.transactions, id ∈ g.transactions) ∧
  ∃ status, store.status = .ok status ∧ ∃ g ∈ status.forks, g.streamId = fork.streamId ∧
    ∀ id ∈ fork.transactions, id ∈ g.transactions

/-- The transactions of `fork` extend its stream from its base. -/
def HeadsPresent (store : FileEventStore Value) (fork : Fork) : Prop :=
  fork.transactions ≠ [] ∧ ∀ id ∈ fork.transactions,
    Extending store.index.headers fork.streamId.value fork.baseVersion id

section Report

variable {minted : List Uuid} {store : FileEventStore Value} {fork : Fork}

theorem reported_iff (hs : Sound minted store) (hheads : HeadsPresent store fork) :
    Reported store fork ↔ ReplicasChained store.index.headers ∧
      Forked store.index.headers fork.streamId.value fork.baseVersion := by
  have hstatus : ∀ forks, store.detectForks = .ok forks →
      store.status = .ok ⟨forks,detectDanglingIn store.index.headers⟩ := by
    intro forks h
    rw [FileEventStore.status,show detectForksIn store.index.headers = .ok forks from h]
    rfl
  rcases detectForksIn_spec hs.wellFormed with ⟨hnot,_,_,_,herr⟩ | ⟨hchain,forks,hrun,_,hmem⟩
  · refine iff_of_false ?_ fun h => hnot h.1
    rintro ⟨⟨forks,hrun,_⟩,_⟩
    rw [FileEventStore.detectForks,herr] at hrun
    cases hrun
  · simp only [hchain,true_and]
    constructor
    · rintro ⟨⟨forks',hrun',g,hg,hstream,hsub⟩,_⟩
      rw [FileEventStore.detectForks,hrun] at hrun'
      obtain rfl := Except.ok.inj hrun'
      obtain ⟨id,hid⟩ := List.exists_mem_of_ne_nil _ hheads.1
      obtain ⟨header,hget,hbase⟩ := hheads.2 id hid
      obtain ⟨header',hget',hbase'⟩ :=
        (fork_transactions_mem hs.wellFormed hrun hg).mp (hsub id hid)
      -- one transaction records one base for the stream
      have hbases : fork.baseVersion = g.baseVersion := by
        rw [hget] at hget'
        obtain rfl := Option.some.inj hget'
        rw [hstream,hbase] at hbase'
        exact Option.some.inj hbase'
      rw [hbases,← hstream]
      exact ((hmem g).mp hg).1
    · intro hforked
      let g : Fork := ⟨fork.streamId,fork.baseVersion,
        (candidatesOf store.index.headers fork.streamId.value fork.baseVersion).insertionSort (· ≤ ·)⟩
      have hg : g ∈ forks := (hmem g).mpr ⟨hforked,rfl⟩
      have hsub : ∀ id ∈ fork.transactions, id ∈ g.transactions := fun id hid =>
        (fork_transactions_mem hs.wellFormed hrun hg).mpr (hheads.2 id hid)
      exact ⟨⟨forks,hrun,g,hg,rfl,hsub⟩,_,hstatus forks hrun,g,hg,rfl,hsub⟩

theorem HeadsPresent.mono {store' : FileEventStore Value} (h : HeadsPresent store fork)
    (hext : ∀ {id header}, store.index.headers.get? id = some header →
      store'.index.headers.get? id = some header) : HeadsPresent store' fork := by
  refine ⟨h.1,fun id hid => ?_⟩
  obtain ⟨header,hget,hbase⟩ := h.2 id hid
  exact ⟨header,hext hget,hbase⟩

end Report

/-- An append leaves the fork reported if it writes nothing, or if it registers the forked
stream at the fork's own base. -/
def AppendKeeps (parse : Raw → Option Value) (store : FileEventStore Value) (fork : Fork)
    (writes : StreamWrites Any Raw) : Prop :=
  writes.entries = [] ∨ Rejected parse store.index writes ∨
    writes.expectedVersions.get? fork.streamId = some fork.baseVersion

/-- A reconciliation leaves the fork reported if it merges nothing, or merges one fork that lies
above everything the replica wrote itself and either not above the whole group of `fork` or with
events that extend the forked stream from the fork's own base. -/
def ReconcileKeeps (form : ValueForm Value E) (resolver : ForkContext E → ResolutionOutcome E)
    (store : FileEventStore Value) (fork : Fork) : Prop :=
  ∃ forks, store.detectForks = .ok forks ∧ (mergedForks form resolver store forks = [] ∨
    ∃ g context events, mergedForks form resolver store forks = [g] ∧
      buildForkContext form store g = .ok context ∧ resolver context = .resolve events ∧
      (∀ id header, store.index.headers.get? id = some header →
        header.replicaId = store.replicaId → Below store.index.headers g.transactions id) ∧
      (((∃ event ∈ events, (form.streamId event).value = fork.streamId.value) ∧
          fork.baseVersion = store.index.streamHead fork.streamId.value) ∨
        ∃ a, Extending store.index.headers fork.streamId.value fork.baseVersion a ∧
          ¬ Below store.index.headers g.transactions a))

section Steps

variable {minted : List Uuid} {store : FileEventStore Value} {fork : Fork}

theorem reported_append_iff (hs : Sound minted store) (hheads : HeadsPresent store fork)
    (hreported : Reported store fork) {parse : Raw → Option Value} {stamp : Stamp}
    {writes : StreamWrites Any Raw} (hfresh : stamp.transactionId ∉ minted) :
    HeadsPresent (appendEvents parse store stamp writes).2 fork ∧
    (Reported (appendEvents parse store stamp writes).2 fork ↔ AppendKeeps parse store fork writes) := by
  have hs' := hs.appendEvents parse writes hfresh
  rcases appendEvents_cases parse store stamp writes with
    ⟨hnil,hrun⟩ | ⟨_,e,hprep,hrun⟩ | ⟨hents,t,hprep,hrun⟩
  · rw [hrun]
    exact ⟨hheads,iff_of_true hreported (.inl hnil)⟩
  · rw [hrun]
    exact ⟨hheads,iff_of_true hreported (.inr (.inl (rejected_of_error hprep)))⟩
  · have hkept : ¬ Rejected parse store.index writes := not_rejected_of_ok hprep
    obtain ⟨hid,_,hparents,hbases,_⟩ := prepareAppend_eq_ok hprep
    have hnew : t.header.transactionId ∉ store.index.headers :=
      fun hm => hfresh (hid ▸ hs.drawn hm)
    have hmem : ∀ p ∈ t.header.parentTransactionIds, p ∈ store.index.headers :=
      fun p hp => hs.tips (hparents ▸ hp)
    rw [hrun] at hs' ⊢
    have hheads' : HeadsPresent (store.commit t fun _ => [t.id]) fork :=
      hheads.mono fun hget => by rw [commit_headers]; exact get?_extend hnew hget
    refine ⟨hheads',?_⟩
    obtain ⟨hchain,hforked⟩ := (reported_iff hs hheads).mp hreported
    have hall : ∀ {id}, id ∈ store.index.headers →
        Below store.index.headers t.header.parentTransactionIds id :=
      fun hid => hparents ▸ hs.below_tips hid
    rw [reported_iff hs' hheads',commit_headers,replicasChained_extend_iff hs.wellFormed hnew hmem,
      forked_extend_iff hs.wellFormed hnew hmem,hbases,streamBasesOf_get?]
    simp only [AppendKeeps,hents,hkept,false_or]
    constructor
    · rintro ⟨_,⟨⟨s,hs,hexp⟩,_⟩ | ⟨_,_,a,ha,hnot⟩⟩
      · rwa [StreamId.value_injective hs] at hexp
      · exact absurd (hall (extending_mem ha)) hnot
    · intro hexp
      obtain ⟨id,hid⟩ := List.exists_mem_of_ne_nil _ hheads.1
      refine ⟨⟨hchain,fun a ha hget _ => ?_⟩,.inl ⟨⟨_,rfl,hexp⟩,id,hheads.2 id hid⟩⟩
      exact hall (HashMap.mem_of_get? hget)

theorem reported_reopen (hs : Sound minted store) (hheads : HeadsPresent store fork)
    (hreported : Reported store fork) :
    HeadsPresent store.reopen fork ∧ Reported store.reopen fork := by
  have hsame : SameHeaders store.index.headers store.reopen.index.headers := hs.headers
  have hheads' : HeadsPresent store.reopen fork := hheads.mono fun hget => (hsame _).symm.trans hget
  refine ⟨hheads',(reported_iff hs.reopen hheads').mpr ?_⟩
  obtain ⟨hchain,hforked⟩ := (reported_iff hs hheads).mp hreported
  exact ⟨hsame.replicasChained hchain,hsame.forked_iff.mp hforked⟩

theorem reported_reconcile_iff (hs : Sound minted store) (hheads : HeadsPresent store fork)
    (hreported : Reported store fork) (form : ValueForm Value E)
    (resolver : ForkContext E → ResolutionOutcome E) {stamp : ℕ → Stamp}
    (hids : (drawnIds stamp 0 (forkCount store)).Nodup)
    (hfresh : ∀ id ∈ drawnIds stamp 0 (forkCount store), id ∉ minted) :
    HeadsPresent (reconcile form resolver stamp store).2 fork ∧
    (Reported (reconcile form resolver stamp store).2 fork ↔
      ReconcileKeeps form resolver store fork) := by
  have hs' := hs.reconcile form resolver hids hfresh
  obtain ⟨⟨forks,hdetect,_⟩,_⟩ := id hreported
  have hheadsAll := hs.fork_heads hdetect
  have hcount : forkCount store = forks.length := by rw [forkCount,hdetect]
  have hrun : reconcile form resolver stamp store =
      reconcileForks form resolver stamp forks store ⟨0,[]⟩ := by rw [reconcile,hdetect]
  rw [hcount] at hids hfresh
  have hheads' : HeadsPresent (reconcile form resolver stamp store).2 fork := by
    rw [hrun]
    exact hheads.mono fun hget =>
      reconcileForks_keeps form resolver ⟨0,[]⟩ hs hheadsAll hids hfresh hget
  refine ⟨hheads',?_⟩
  obtain ⟨hchain,hforked⟩ := (reported_iff hs hheads).mp hreported
  rw [reported_iff hs' hheads']
  obtain ⟨_,hspec⟩ := reconcileForks_spec form resolver ⟨0,[]⟩ hs hheadsAll hids hfresh
  rw [← hrun] at hspec
  cases hmerged : mergedForks form resolver store forks with
  | nil =>
    simp only [hmerged] at hspec
    rw [hspec]
    exact iff_of_true ⟨hchain,hforked⟩ ⟨forks,hdetect,.inl hmerged⟩
  | cons g gs =>
    cases gs with
    | cons g₂ gs =>
      simp only [hmerged] at hspec
      obtain ⟨_,_,_,_,_,_,hnot⟩ := hspec
      refine iff_of_false (fun h => hnot h.1) ?_
      rintro ⟨forks',hdetect',hcase⟩
      rw [hdetect] at hdetect'
      obtain rfl := Except.ok.inj hdetect'
      rw [hmerged] at hcase
      rcases hcase with h | ⟨_,_,_,h,_⟩ <;> simp at h
    | nil =>
      simp only [hmerged] at hspec
      obtain ⟨context,events,hctx,hres,hwrite⟩ := hspec
      have hg : g ∈ forks := mem_of_mergedForks form resolver (hmerged ▸ List.mem_cons_self)
      have hnew : (stamp 0).transactionId ∉ minted := hfresh _ (stamp_mem_drawnIds stamp 0 hg)
      have hmine := hheadsAll g hg
      rw [writeMerge_replicasChained hs hnew hmine hwrite,writeMerge_forked hs hnew hmine hwrite]
      obtain ⟨id₀,hid₀⟩ := List.exists_mem_of_ne_nil _ hheads.1
      constructor
      · rintro ⟨⟨_,hbelow⟩,hcase⟩
        refine ⟨forks,hdetect,.inr ⟨g,context,events,hmerged,hctx,hres,hbelow,?_⟩⟩
        rcases hcase with ⟨hev,hbase,_⟩ | ⟨_,_,hopen⟩
        · exact .inl ⟨hev,hbase⟩
        · exact .inr hopen
      · rintro ⟨forks',hdetect',hcase⟩
        rw [hdetect] at hdetect'
        obtain rfl := Except.ok.inj hdetect'
        rw [hmerged] at hcase
        rcases hcase with h | ⟨g',context',events',h,hctx',hres',hbelow,hkeep⟩
        · cases h
        obtain rfl := (List.cons.inj h).1
        rw [hctx] at hctx'
        obtain rfl := Except.ok.inj hctx'
        rw [hres] at hres'
        obtain rfl := ResolutionOutcome.resolve.inj hres'
        refine ⟨⟨hchain,hbelow⟩,?_⟩
        by_cases hjoin : (∃ event ∈ events, (form.streamId event).value = fork.streamId.value) ∧
            fork.baseVersion = store.index.streamHead fork.streamId.value
        · exact .inl ⟨hjoin.1,hjoin.2,id₀,hheads.2 id₀ hid₀⟩
        · exact .inr ⟨hjoin,hforked,hkeep.resolve_left hjoin⟩

end Steps

section Run

variable [DecidableEq ι]

def Action.mergesInto (r : ι) : Action ι Any Raw Value E → Bool
  | .merge r' _ => r' = r
  | _ => false

variable (Any E : Type) (parse : Raw → Option Value) (r : ι)

/-- The working copies, with nothing merged into `r` any more. -/
def unmergedInto : Runs.System (World ι Value) (Action ι Any Raw Value E) where
  init := (system Any E parse).init
  step w l := if l.mergesInto r then none else (system Any E parse).step w l

/-- The condition on one step under which the fork stays reported by `r`. -/
def KeepsReported (fork : Fork) (w : World ι Value) : Action ι Any Raw Value E → Prop
  | .append r' writes _ => r' = r → AppendKeeps parse (w.replica r) fork writes
  | .reconcile r' form resolver _ => r' = r → ReconcileKeeps form resolver (w.replica r) fork
  | .reopen _ => True
  | .merge _ _ => True

variable {Any E parse r}

theorem system_step_of_unmergedInto {w w' : World ι Value} {l : Action ι Any Raw Value E}
    (h : (unmergedInto Any E parse r).step w l = some w') :
    (system Any E parse).step w l = some w' := by
  simp only [unmergedInto] at h
  split_ifs at h
  exact h

theorem reported_step_iff {fork : Fork} {w w' : World ι Value} {l : Action ι Any Raw Value E}
    (hs : Sound w.minted (w.replica r)) (hheads : HeadsPresent (w.replica r) fork)
    (hreported : Reported (w.replica r) fork)
    (hstep : (unmergedInto Any E parse r).step w l = some w') :
    HeadsPresent (w'.replica r) fork ∧
      (Reported (w'.replica r) fork ↔ KeepsReported Any E parse r fork w l) := by
  have hl : l.mergesInto r = false := by
    by_contra hmerge
    simp [unmergedInto,hmerge] at hstep
  obtain ⟨r',store,ids,heffect,rfl⟩ := World.step_cases (system_step_of_unmergedInto hstep)
  by_cases hr : r' = r
  · subst hr
    simp only [Function.update_self]
    cases heffect with
    | append hfresh => simpa [KeepsReported] using reported_append_iff hs hheads hreported hfresh
    | reopen => simpa [KeepsReported] using reported_reopen hs hheads hreported
    | reconcile hids hfresh =>
      simpa [KeepsReported] using reported_reconcile_iff hs hheads hreported _ _ hids hfresh
    | merge => exact absurd rfl (of_decide_eq_false hl)
  · have hkeeps : KeepsReported Any E parse r fork w l := by
      cases heffect with
      | append | reconcile => exact fun h => absurd h hr
      | reopen | merge => trivial
    simp only [Function.update_of_ne (Ne.symm hr)]
    exact ⟨hheads,iff_of_true hreported hkeeps⟩

/-- A fork stays reported in every state of a later run without merges into the store exactly
when every step of the run meets its condition. -/
theorem fork_stays_reported_iff {w u : World ι Value}
    (hw : Runs.Reachable (system Any E parse) w) {forks : List Fork} {fork : Fork}
    (hdetect : (w.replica r).detectForks = .ok forks) (hfork : fork ∈ forks)
    {ls : List (Action ι Any Raw Value E)}
    (hrun : Runs.exec (unmergedInto Any E parse r) w ls = some u) :
    Runs.Along (unmergedInto Any E parse r) (fun w => Reported (w.replica r) fork) w ls ↔
      Runs.AllSteps (unmergedInto Any E parse r) (KeepsReported Any E parse r fork) w ls := by
  have hs := World.sound_of_reachable hw r
  have hin := fun id => @fork_transactions_mem _ hs.wellFormed _ hdetect fork hfork id
  have hforked : ReplicasChained (w.replica r).index.headers ∧
      Forked (w.replica r).index.headers fork.streamId.value fork.baseVersion := by
    obtain ⟨hchain,hmem⟩ := detectForksIn_eq_ok hs.wellFormed hdetect
    exact ⟨hchain,((hmem fork).mp hfork).1⟩
  have hheads : HeadsPresent (w.replica r) fork := by
    refine ⟨?_,fun id hid => (hin id).mp hid⟩
    obtain ⟨⟨a,_,_,ha,_⟩,_⟩ := hforked.2
    exact List.ne_nil_of_mem ((hin a).mpr ha)
  refine Runs.along_iff_allSteps
    (I := fun w => Runs.Reachable (system Any E parse) w ∧ HeadsPresent (w.replica r) fork)
    ?_ ⟨hw,hheads⟩ ((reported_iff hs hheads).mpr hforked) hrun
  rintro w l w' ⟨hw,hheads⟩ hreported hstep
  obtain ⟨hheads',hiff⟩ :=
    reported_step_iff (World.sound_of_reachable hw r) hheads hreported hstep
  exact ⟨fun _ => ⟨hw.step trivial (system_step_of_unmergedInto hstep),hheads'⟩,hiff⟩

end Run

section Scenarios
open TwoCopies

/-- Two copies fork one stream; after the merge an append to another stream makes detection and
status silent about the fork, though nobody reconciled. -/
theorem append_hides_fork :
    ∃ w w' : World Bool ℕ, Runs.Reachable twoCopies w ∧
      (w.replica true).detectForks = .ok [⟨account1,0,[1,2]⟩] ∧
      Runs.exec (unmergedInto ℕ ℕ some true) w [.append true openOther (stamp 3)] = some w' ∧
      (w'.replica true).detectForks = .ok [] ∧ (w'.replica true).status = .ok ⟨[],[]⟩ := by
  have hrun : ((Runs.exec twoCopies start (divergeOn openOne)).bind fun w =>
      (Runs.exec (unmergedInto ℕ ℕ some true) w
        ([.append true openOther (stamp 3)] : List (Action Bool ℕ ℕ ℕ ℕ))).map fun w' =>
          ((w.replica true).detectForks,(w'.replica true).detectForks,(w'.replica true).status)) =
      some (.ok [⟨account1,0,[1,2]⟩],.ok [],.ok ⟨[],[]⟩) := by decide +kernel
  simp only [Option.bind_eq_some_iff,Option.map_eq_some_iff,Prod.mk.injEq] at hrun
  obtain ⟨w,hw,w',hw',hbefore,hafter,hstatus⟩ := hrun
  exact ⟨w,w',start_reachable.exec hw,hbefore,hw',hafter,hstatus⟩

/-- The same fork through a reopen, which keeps it reported. -/
theorem fork_stays_reported_iff_reopen :
    ∃ w : World Bool ℕ, Runs.exec twoCopies start (divergeOn openOne) = some w ∧
      (Runs.Along (unmergedInto ℕ ℕ some true)
          (fun w => Reported (w.replica true) ⟨account1,0,[1,2]⟩) w
          ([.reopen true] : List (Action Bool ℕ ℕ ℕ ℕ)) ↔
        Runs.AllSteps (unmergedInto ℕ ℕ some true)
          (KeepsReported ℕ ℕ some true ⟨account1,0,[1,2]⟩) w [.reopen true]) := by
  have hrun : (Runs.exec twoCopies start (divergeOn openOne)).map
      (fun w => (w.replica true).detectForks) = some (.ok [⟨account1,0,[1,2]⟩]) := by decide +kernel
  obtain ⟨w,hw,hdetect⟩ := Option.map_eq_some_iff.mp hrun
  exact ⟨w,hw,fork_stays_reported_iff (start_reachable.exec hw) hdetect List.mem_cons_self rfl⟩

end Scenarios

end FileStore
end EventCore
