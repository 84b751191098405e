import EventCore.LostDivergence
import EventCore.ReconcileForks

/-! Whether reconciling over and over comes to one head. A merge takes the place of those heads only
that it has as parents, and the transactions of a fork need not be heads. -/
namespace EventCore
namespace ReconcileProgress
open FileStore GraphSearch Runs

variable {Any Raw Value E ι : Type}

/-- Transactions without children. -/
def heads (store : FileEventStore Value) : List Uuid := computeTips store.index.headers

def joinedHeads (store : FileEventStore Value) (fork : Fork) : List Uuid :=
  (heads store).filter fun id => id ∈ fork.transactions

theorem joinedHeads_length_le (store : FileEventStore Value) (fork : Fork) :
    (joinedHeads store fork).length ≤ (heads store).length := List.length_filter_le _ _

section Merge

variable {minted : List Uuid} {store store' : FileEventStore Value} {form : ValueForm Value E}
  {stamp : Stamp} {fork : Fork} {events : List E}

theorem heads_nodup (store : FileEventStore Value) : (heads store).Nodup :=
  (List.perm_insertionSort _ _).nodup_iff.mpr (store.index.headers.nodupKeys.filter _)

theorem heads_length_pos (hs : Sound minted store) (hfiles : store.files ≠ []) :
    0 < (heads store).length := by
  obtain ⟨t,ht⟩ := List.exists_mem_of_ne_nil _ hfiles
  obtain ⟨tip,htip,_⟩ := hs.reopen.below_tips (hs.reopen.mem_headers ht)
  rw [reopen_tips,← computeTips_congr hs.headers] at htip
  exact List.length_pos_of_mem htip

theorem heads_commit {t : Transaction Value} (hs : Sound minted store) (hfresh : t.id ∉ minted)
    (hparents : ∀ p ∈ t.header.parentTransactionIds, p ∈ store.index.headers) :
    (heads (store.commit t computeTips)).Perm
      (t.id :: (heads store).filter fun id => id ∉ t.header.parentTransactionIds) := by
  have hnew : t.header.transactionId ∉ store.index.headers := fun hm => hfresh (hs.drawn hm)
  have hnodup : (t.id :: (heads store).filter fun id =>
      id ∉ t.header.parentTransactionIds).Nodup := by
    refine List.nodup_cons.mpr ⟨fun hmem => ?_,(heads_nodup store).filter _⟩
    exact hnew (mem_computeTips.mp (List.mem_filter.mp hmem).1).1
  refine (List.perm_ext_iff_of_nodup (heads_nodup _) hnodup).mpr fun id => ?_
  rw [heads,commit_headers,mem_computeTips,List.mem_cons,List.mem_filter,heads,mem_computeTips]
  change id ∈ extend store.index.headers t.header ∧
    (∀ x, id ∉ parentsOf (extend store.index.headers t.header) x) ↔ _
  have hmem : id ∈ extend store.index.headers t.header ↔
      id = t.header.transactionId ∨ id ∈ store.index.headers := mem_extend
  rw [hmem]
  constructor
  · rintro ⟨hid | hid,hnone⟩
    · exact .inl hid
    · refine .inr ⟨⟨hid,fun x hx => hnone x ?_⟩,decide_eq_true fun hp => ?_⟩
      · rwa [parentsOf_extend_ne fun he => hnew (he ▸ mem_of_parentsOf hx)]
      · exact hnone t.header.transactionId (by rwa [parentsOf_extend_self])
  · rintro (rfl | ⟨⟨hid,hnone⟩,hnot⟩)
    · refine ⟨.inl rfl,fun x hx => ?_⟩
      rw [parentsOf_insert] at hx
      split_ifs at hx
      · exact hnew (hparents _ hx)
      · exact hnew (hs.wellFormed.closed hx)
    · refine ⟨.inr hid,fun x hx => ?_⟩
      rw [parentsOf_insert] at hx
      split_ifs at hx
      · exact of_decide_eq_true hnot hx
      · exact hnone x hx

theorem heads_writeMerge (hs : Sound minted store) (hfresh : stamp.transactionId ∉ minted)
    (hheads : ∀ p ∈ fork.transactions, p ∈ store.index.headers)
    (h : writeMergeTransaction form store stamp fork events = .ok store') :
    (heads store').length + (joinedHeads store fork).length = (heads store).length + 1 := by
  obtain ⟨items,_,rfl⟩ := writeMerge_eq_ok h
  have hperm : (heads (store.commit (mergeTransaction store stamp fork items) computeTips)).Perm
      (stamp.transactionId :: (heads store).filter fun id => id ∉ fork.transactions) :=
    heads_commit hs hfresh hheads
  have hsplit := List.length_eq_length_filter_add (l := heads store)
    fun id => decide (id ∈ fork.transactions)
  simp only [← decide_not] at hsplit
  rw [hperm.length_eq,List.length_cons,joinedHeads]
  omega

theorem writeMerge_decreases_iff (hs : Sound minted store) (hfresh : stamp.transactionId ∉ minted)
    (hheads : ∀ p ∈ fork.transactions, p ∈ store.index.headers)
    (h : writeMergeTransaction form store stamp fork events = .ok store') :
    (heads store').length < (heads store).length ↔ 2 ≤ (joinedHeads store fork).length := by
  have hlength := heads_writeMerge hs hfresh hheads h
  omega

end Merge

section Pass

variable (form : ValueForm Value E) (resolver : ForkContext E → ResolutionOutcome E)

/-- The store before and after each merge that a pass over the forks writes. -/
def mergesOf (stamp : ℕ → Stamp) (store : FileEventStore Value) (resolved : ℕ) :
    List Fork → List (FileEventStore Value × FileEventStore Value)
  | [] => []
  | fork :: forks =>
    match buildForkContext form store fork with
    | .error _ => []
    | .ok context =>
      match resolver context with
      | .unresolvable _ => mergesOf stamp store resolved forks
      | .resolve events =>
        match writeMergeTransaction form store (stamp resolved) fork events with
        | .error _ => []
        | .ok store' => (store,store') :: mergesOf stamp store' (resolved+1) forks

/-- What `reconcile` writes. -/
def merges (stamp : ℕ → Stamp) (store : FileEventStore Value) :
    List (FileEventStore Value × FileEventStore Value) :=
  match store.detectForks with
  | .error _ => []
  | .ok forks => mergesOf form resolver stamp store 0 forks

/-- The forks that `reconcile` finds and can merge: those whose branches decode, up to the first
one whose resolution cannot be serialized. -/
def forksToMerge (store : FileEventStore Value) : List Fork :=
  match store.detectForks with
  | .error _ => []
  | .ok forks => mergedForks form resolver store forks

variable {minted : List Uuid} {store : FileEventStore Value} {stamp : ℕ → Stamp}

theorem reconcileForks_files (stamp : ℕ → Stamp) (forks : List Fork) (store : FileEventStore Value)
    (report : ReconcileReport) :
    (reconcileForks form resolver stamp forks store report).2.files.length = store.files.length +
      (mergesOf form resolver stamp store report.resolved forks).length := by
  induction forks generalizing store report with
  | nil => rfl
  | cons fork forks ih =>
    simp only [reconcileForks,mergesOf]
    cases buildForkContext form store fork with
    | error e => rfl
    | ok context =>
      cases hres : resolver context with
      | unresolvable reason =>
        simp only [hres]
        exact ih store { report with unresolved := report.unresolved ++ [fork.streamId] }
      | resolve events =>
        cases hrun : writeMergeTransaction form store (stamp report.resolved) fork events with
        | error e => simp only [hres,hrun,List.length_nil,Nat.add_zero]
        | ok store' =>
          simp only [hres,hrun,List.length_cons]
          rw [ih store' { report with resolved := report.resolved+1 }]
          obtain ⟨items,_,rfl⟩ := writeMerge_eq_ok hrun
          rw [commit_files,List.length_append,List.length_singleton,Nat.add_assoc,Nat.add_comm 1]

theorem reconcileForks_store (stamp : ℕ → Stamp) (forks : List Fork) (store : FileEventStore Value)
    (report : ReconcileReport) : (reconcileForks form resolver stamp forks store report).2 =
      ((mergesOf form resolver stamp store report.resolved forks).getLast?.map Prod.snd).getD
        store := by
  induction forks generalizing store report with
  | nil => rfl
  | cons fork forks ih =>
    simp only [reconcileForks,mergesOf]
    cases buildForkContext form store fork with
    | error e => rfl
    | ok context =>
      cases hres : resolver context with
      | unresolvable reason =>
        simp only [hres]
        exact ih store { report with unresolved := report.unresolved ++ [fork.streamId] }
      | resolve events =>
        cases hrun : writeMergeTransaction form store (stamp report.resolved) fork events with
        | error e => simp only [hres,hrun,List.getLast?_nil,Option.map_none,Option.getD_none]
        | ok store' =>
          simp only [hres,hrun,List.getLast?_cons,Option.map_some,Option.getD_some]
          rw [ih store' { report with resolved := report.resolved+1 }]
          cases (mergesOf form resolver stamp store' (report.resolved+1) forks).getLast? <;> rfl

theorem mergesOf_cases {forks : List Fork} (resolved : ℕ) (hs : Sound minted store)
    (hheads : ∀ f ∈ forks, ∀ p ∈ f.transactions, p ∈ store.index.headers)
    (hids : (drawnIds stamp resolved forks.length).Nodup)
    (hfresh : ∀ id ∈ drawnIds stamp resolved forks.length, id ∉ minted) :
    (mergesOf form resolver stamp store resolved forks).length =
      (mergedForks form resolver store forks).length ∧
    ∀ g gs, mergedForks form resolver store forks = g :: gs → ∃ events store' rest,
      mergesOf form resolver stamp store resolved forks = (store,store') :: rest ∧
      writeMergeTransaction form store (stamp resolved) g events = .ok store' := by
  induction forks generalizing minted store resolved with
  | nil => exact ⟨rfl,fun _ _ h => absurd h.symm (List.cons_ne_nil _ _)⟩
  | cons fork forks ih =>
    simp only [mergesOf,mergedForks]
    have htail := fun f hf => hheads f (List.mem_cons_of_mem fork hf)
    cases hctx : buildForkContext form store fork with
    | error e => exact ⟨rfl,fun _ _ h => absurd h.symm (List.cons_ne_nil _ _)⟩
    | ok context =>
      cases hres : resolver context with
      | unresolvable reason =>
        simp only [List.length_cons,drawnIds_succ',hres] at hids hfresh ⊢
        exact ih resolved hs htail (List.nodup_append.mp hids).1
          fun id hid => hfresh id (List.mem_append_left _ hid)
      | resolve events =>
        cases hitems : mergeItems form events with
        | error e => simp [hres,hitems,writeMergeTransaction]
        | ok items =>
          have hrun : writeMergeTransaction form store (stamp resolved) fork events =
              .ok (store.commit (mergeTransaction store (stamp resolved) fork items)
                computeTips) := by
            rw [writeMergeTransaction,hitems]
          simp only [List.length_cons,drawnIds_succ,hres,hitems,hrun] at hids hfresh ⊢
          have hrest := ih (resolved+1)
            (hs.writeMerge (hfresh _ List.mem_cons_self) (hheads fork List.mem_cons_self) hrun)
            (fun f hf p hp => writeMerge_headers hrun (htail f hf p hp)) (List.nodup_cons.mp hids).2
            (not_mem_tail hids hfresh)
          rw [mergedForks_commit form resolver hs _ _ htail] at hrest
          refine ⟨by rw [hrest.1],fun g gs hg => ?_⟩
          obtain ⟨rfl,_⟩ := List.cons.inj hg
          exact ⟨events,_,_,rfl,hrun⟩

/-- All merges of a pass are heads after it, as each has parents that were there before. -/
theorem merges_le_heads {forks : List Fork} (report : ReconcileReport) {minted' : List Uuid}
    (hs : Sound minted store)
    (hs' : Sound minted' (reconcileForks form resolver stamp forks store report).2)
    (hheads : ∀ f ∈ forks, ∀ p ∈ f.transactions, p ∈ store.index.headers) :
    (mergesOf form resolver stamp store report.resolved forks).length ≤
      (heads (reconcileForks form resolver stamp forks store report).2).length := by
  have hlength := reconcileForks_files form resolver stamp forks store report
  obtain ⟨hold,more,hmore⟩ : (∀ x id, id ∈ parentsOf
        (reconcileForks form resolver stamp forks store report).2.index.headers x →
          id ∈ store.index.headers) ∧
      ∃ more, (reconcileForks form resolver stamp forks store report).2.files =
        store.files ++ more := by
    refine reconcileForks_induct (P := fun merged => (∀ x id,
      id ∈ parentsOf merged.index.headers x → id ∈ store.index.headers) ∧
        ∃ more, merged.files = store.files ++ more) ?_
      ⟨fun _ _ hp => hs.wellFormed.closed hp,[],(List.append_nil _).symm⟩
    rintro merged fork hfork k _ items ⟨hold,more,hmore⟩
    refine ⟨fun x id hp => ?_,more ++ [_],by rw [commit_files,hmore,List.append_assoc]⟩
    rw [commit_headers,parentsOf_insert] at hp
    split_ifs at hp
    · exact hheads fork hfork id hp
    · exact hold x id hp
  have hsub : more.map Transaction.id ⊆
      heads (reconcileForks form resolver stamp forks store report).2 := by
    intro id hid
    obtain ⟨t,ht,rfl⟩ := List.mem_map.mp hid
    refine mem_computeTips.mpr ⟨hs'.mem_headers (hmore ▸ List.mem_append_right _ ht),fun x hx => ?_⟩
    obtain ⟨u,hu,hid⟩ :=
      (mem_headersOf hs.nodup).mp (hs.headers.mem_iff.mp (hold x t.id hx))
    have hnodup := hs'.nodup
    rw [hmore,List.map_append,List.nodup_append] at hnodup
    exact hnodup.2.2 u.id (List.mem_map_of_mem hu) t.id (List.mem_map_of_mem ht) hid
  have hnodup : (more.map Transaction.id).Nodup := by
    have hall := hs'.nodup
    rw [hmore,List.map_append] at hall
    exact hall.of_append_right
  have hle := (hnodup.subperm hsub).length_le
  rw [hmore,List.length_append] at hlength
  rw [List.length_map] at hle
  omega

/-- What a pass can do: leave the store alone, write one merge, or write several, which all stay
heads and make a replica conflict that keeps every later pass from merging anything. -/
def Pass (stamp : ℕ → Stamp) (store store' : FileEventStore Value) : Prop :=
  (forksToMerge form resolver store = [] ∧ merges form resolver stamp store = [] ∧
    store' = store) ∨
  (∃ g, forksToMerge form resolver store = [g] ∧
    merges form resolver stamp store = [(store,store')] ∧
    (heads store').length + (joinedHeads store g).length = (heads store).length + 1) ∨
  (2 ≤ (forksToMerge form resolver store).length ∧
    (∃ merged, (store,merged) ∈ merges form resolver stamp store ∧ 0 < (heads merged).length) ∧
    2 ≤ (heads store').length ∧ forksToMerge form resolver store' = [])

theorem pass_reconcile (hs : Sound minted store)
    (hids : (drawnIds stamp 0 (forkCount store)).Nodup)
    (hfresh : ∀ id ∈ drawnIds stamp 0 (forkCount store), id ∉ minted) :
    Pass form resolver stamp store (reconcile form resolver stamp store).2 := by
  have hs' := hs.reconcile form resolver hids hfresh
  revert hs'
  unfold Pass forksToMerge merges reconcile forkCount at *
  cases hdetect : store.detectForks with
  | error e => exact fun _ => .inl ⟨rfl,rfl,rfl⟩
  | ok forks =>
    simp only [hdetect] at hids hfresh ⊢
    intro hs'
    have hheads := hs.fork_heads hdetect
    obtain ⟨_,hspec⟩ := reconcileForks_spec form resolver ⟨0,[]⟩ hs hheads hids hfresh
    obtain ⟨hlength,hfirst⟩ := mergesOf_cases form resolver 0 hs hheads hids hfresh
    have hcount : (mergesOf form resolver stamp store 0 forks).length ≤ _ :=
      merges_le_heads form resolver ⟨0,[]⟩ hs hs' hheads
    have hstore : (reconcileForks form resolver stamp forks store ⟨0,[]⟩).2 =
        ((mergesOf form resolver stamp store 0 forks).getLast?.map Prod.snd).getD store :=
      reconcileForks_store form resolver stamp forks store ⟨0,[]⟩
    match hmerged : mergedForks form resolver store forks with
    | [] =>
      simp only [hmerged] at hspec hlength
      exact .inl ⟨rfl,List.length_eq_zero_iff.mp hlength,hspec⟩
    | [g] =>
      obtain ⟨events,store',rest,hmerges,hrun⟩ := hfirst g [] hmerged
      rw [hmerges,hmerged,List.length_cons,List.length_singleton] at hlength
      obtain rfl : rest = [] := List.length_eq_zero_iff.mp (by omega)
      have hg : g ∈ forks := mem_of_mergedForks form resolver (hmerged ▸ List.mem_cons_self)
      have hlast : (reconcileForks form resolver stamp forks store ⟨0,[]⟩).2 = store' := by
        rw [hstore,hmerges]
        rfl
      rw [hlast,hmerges]
      exact .inr (.inl ⟨g,rfl,rfl,heads_writeMerge hs (hfresh _ (stamp_mem_drawnIds stamp 0 hg))
        (hheads g hg) hrun⟩)
    | g :: g' :: gs =>
      obtain ⟨events,store',rest,hmerges,hrun⟩ := hfirst g (g' :: gs) hmerged
      have hg : g ∈ forks := mem_of_mergedForks form resolver (hmerged ▸ List.mem_cons_self)
      have hheads' := heads_writeMerge hs (hfresh _ (stamp_mem_drawnIds stamp 0 hg)) (hheads g hg)
        hrun
      have hjoined := joinedHeads_length_le store g
      simp only [hmerged,List.length_cons] at hspec hlength
      obtain ⟨_,_,_,_,_,_,hnot⟩ := hspec
      refine .inr (.inr ⟨by simp,⟨store',hmerges ▸ List.mem_cons_self,by omega⟩,by omega,?_⟩)
      rcases detectForksIn_spec hs'.wellFormed with ⟨_,_,_,_,herr⟩ | ⟨hchain,_⟩
      · rw [FileEventStore.detectForks,herr]
      · exact absurd hchain hnot

end Pass

section Repetition

variable (form : ValueForm Value E) (resolver : ForkContext E → ResolutionOutcome E)

/-- A pass that finds several heads has one fork to merge and two of its transactions are heads;
one that finds a single head has none. -/
def Progresses (store : FileEventStore Value) : Prop :=
  if 1 < (heads store).length then
    ∃ g, forksToMerge form resolver store = [g] ∧ 2 ≤ (joinedHeads store g).length
  else forksToMerge form resolver store = []

variable {form resolver} {s : ℕ → FileEventStore Value} {stamp : ℕ → ℕ → Stamp}
  (hpass : ∀ n, Pass form resolver (stamp n) (s n) (s (n+1)))
include hpass

theorem idle_forever {n : ℕ} (hnone : forksToMerge form resolver (s n) = []) (k : ℕ) :
    s (n+k) = s n := by
  induction k with
  | zero => rfl
  | succ k ih =>
    rcases hpass (n+k) with ⟨_,_,hsame⟩ | ⟨g,hg,_⟩ | ⟨htwo,_⟩
    · exact hsame.trans ih
    · rw [ih,hnone] at hg
      cases hg
    · rw [ih,hnone] at htwo
      cases htwo

variable (hpos : ∀ n, 0 < (heads (s n)).length)
  (hdecreases : ∀ n, ∀ p ∈ merges form resolver (stamp n) (s n),
    (heads p.2).length < (heads p.1).length)
include hpos hdecreases

theorem single_merges_nothing {n : ℕ} (hsingle : (heads (s n)).length = 1) :
    forksToMerge form resolver (s n) = [] := by
  rcases hpass n with ⟨hnone,_⟩ | ⟨g,_,hmerges,_⟩ | ⟨_,⟨merged,hmem,hmerged⟩,_⟩
  · exact hnone
  · have hlt := hdecreases n _ (hmerges ▸ List.mem_cons_self)
    have hpos' := hpos (n+1)
    simp only at hlt
    omega
  · have hlt := hdecreases n _ hmem
    simp only at hlt
    omega

theorem single_stays {m : ℕ} (hsingle : (heads (s m)).length = 1) (k : ℕ) :
    (heads (s (m+k))).length = 1 := by
  rw [idle_forever hpass (single_merges_nothing hpass hpos hdecreases hsingle) k]
  exact hsingle

/-- If a single head is reached and every merge helped, then no pass was idle, and none wrote
more than one merge. -/
theorem progresses_of_single {m : ℕ} (hsingle : (heads (s m)).length = 1) (n : ℕ) :
    Progresses form resolver (s n) := by
  unfold Progresses
  split_ifs with hseveral
  · have hbefore : n < m := by
      by_contra hle
      obtain ⟨k,rfl⟩ := Nat.exists_eq_add_of_le (Nat.le_of_not_lt hle)
      have hstays := single_stays hpass hpos hdecreases hsingle k
      omega
    obtain ⟨k,rfl⟩ := Nat.exists_eq_add_of_lt hbefore
    rcases hpass n with ⟨hnone,_⟩ | ⟨g,hg,hmerges,hlength⟩ | ⟨_,_,htwo,hnone⟩
    · rw [show n+k+1 = n+(k+1) from rfl,idle_forever hpass hnone (k+1)] at hsingle
      omega
    · have hlt := hdecreases n _ (hmerges ▸ List.mem_cons_self)
      simp only at hlt
      exact ⟨g,hg,by omega⟩
    · rw [show n+k+1 = n+1+k by omega,idle_forever hpass hnone k] at hsingle
      omega
  · have hpos' := hpos n
    exact single_merges_nothing hpass hpos hdecreases (by omega)

omit hpos hdecreases

theorem decreases_of_progresses (hprogress : ∀ n, Progresses form resolver (s n)) (n : ℕ) :
    ∀ p ∈ merges form resolver (stamp n) (s n), (heads p.2).length < (heads p.1).length := by
  have hone := hprogress n
  unfold Progresses at hone
  intro p hp
  rcases hpass n with ⟨_,hmerges,_⟩ | ⟨g,hg,hmerges,hlength⟩ | ⟨htwo,_⟩
  · rw [hmerges] at hp
    cases hp
  · rw [hmerges,List.mem_singleton] at hp
    split_ifs at hone
    · obtain ⟨g',hg',hjoined⟩ := hone
      obtain rfl := (List.cons.inj (hg.symm.trans hg')).1
      rw [hp]
      simp only
      omega
    · rw [hg] at hone
      cases hone
  · split_ifs at hone
    · obtain ⟨g',hg',_⟩ := hone
      simp [hg'] at htwo
    · simp [hone] at htwo

include hpos

theorem single_of_progresses (hprogress : ∀ n, Progresses form resolver (s n)) (n : ℕ) :
    ∃ m, (heads (s m)).length = 1 := by
  obtain ⟨bound,hbound⟩ : ∃ bound, (heads (s n)).length ≤ bound := ⟨_,le_rfl⟩
  induction bound generalizing n with
  | zero =>
    have hpos' := hpos n
    omega
  | succ bound ih =>
    by_cases hsingle : (heads (s n)).length = 1
    · exact ⟨n,hsingle⟩
    · have hpos' := hpos n
      have hone := hprogress n
      rw [Progresses,if_pos (by omega)] at hone
      obtain ⟨g,hg,hjoined⟩ := hone
      refine ih (n+1) ?_
      rcases hpass n with ⟨hnone,_⟩ | ⟨g',hg',_,hlength⟩ | ⟨htwo,_⟩
      · simp [hg] at hnone
      · obtain rfl := (List.cons.inj (hg.symm.trans hg')).1
        omega
      · simp [hg] at htwo

end Repetition

/-- One merge of a fork of any reachable history leaves fewer heads just when two of the fork's
transactions are heads. When `reconcile` is repeated, and nothing else is written, every merge that
it writes leaves fewer heads and a single one is reached in the end, exactly if every pass that
finds several heads has one fork to merge and two of its transactions are heads, and a pass that
finds a single head has none. -/
theorem reconcile_progress_iff [DecidableEq ι] {parse : Raw → Option Value}
    {W : ℕ → World ι Value} (hw : Reachable (system Any E parse) (W 0)) {r : ι}
    (hfiles : ((W 0).replica r).files ≠ []) (form : ValueForm Value E)
    (resolver : ForkContext E → ResolutionOutcome E) {stamp : ℕ → ℕ → Stamp}
    (hsteps : ∀ n, (system Any E parse).step (W n) (.reconcile r form resolver (stamp n)) =
      some (W (n+1))) :
    (∀ (w : World ι Value) (forks : List Fork), Reachable (system Any E parse) w →
      (w.replica r).detectForks = .ok forks → ∀ fork ∈ forks, ∀ events stamp store',
        stamp.transactionId ∉ w.minted →
        writeMergeTransaction form (w.replica r) stamp fork events = .ok store' →
        ((heads store').length < (heads (w.replica r)).length ↔
          2 ≤ (joinedHeads (w.replica r) fork).length)) ∧
    (((∀ n, ∀ p ∈ merges form resolver (stamp n) ((W n).replica r),
        (heads p.2).length < (heads p.1).length) ∧ ∃ n, (heads ((W n).replica r)).length = 1) ↔
      ∀ n, Progresses form resolver ((W n).replica r)) := by
  have hreach : ∀ n, Reachable (system Any E parse) (W n) := by
    intro n
    induction n with
    | zero => exact hw
    | succ n ih => exact ih.step trivial (hsteps n)
  let s : ℕ → FileEventStore Value := fun n => (W n).replica r
  have hpass : ∀ n, Pass form resolver (stamp n) (s n) (s (n+1)) := by
    intro n
    have hstep := hsteps n
    simp only [system,World.step] at hstep
    split_ifs at hstep with hfresh
    have hreplica := congrArg (fun w => World.replica w r) (Option.some.inj hstep)
    simp only [Function.update_self] at hreplica
    rw [show s (n+1) = _ from hreplica.symm]
    exact pass_reconcile form resolver (World.sound_of_reachable (hreach n) r) hfresh.1 hfresh.2
  have hpos : ∀ n, 0 < (heads (s n)).length := by
    intro n
    induction n with
    | zero => exact heads_length_pos (World.sound_of_reachable hw r) hfiles
    | succ n ih =>
      rcases hpass n with ⟨_,_,hsame⟩ | ⟨g,_,_,hlength⟩ | ⟨_,_,htwo,_⟩
      · rwa [hsame]
      · have hjoined := joinedHeads_length_le (s n) g
        omega
      · omega
  refine ⟨fun w forks hw hdetect fork hfork events stamp store' hfresh hrun => ?_,?_⟩
  · have hs := World.sound_of_reachable hw r
    exact writeMerge_decreases_iff hs hfresh (hs.fork_heads hdetect fork hfork) hrun
  · constructor
    · rintro ⟨hdecreases,m,hsingle⟩ n
      exact progresses_of_single hpass hpos hdecreases hsingle n
    · intro hprogress
      exact ⟨decreases_of_progresses hpass hprogress,single_of_progresses hpass hpos hprogress 0⟩

section Scenarios
open TwoCopies LostDivergence

/-- One copy makes two deposits and the other one, offline; the second takes in the files of the
first. -/
def shortBranch : List (Action Bool ℕ ℕ ℕ ℕ) :=
  [.append false (depositAt 0) (stamp 1),.append false (depositAt 1) (stamp 2),
    .append true (depositAt 0) (stamp 3),.merge true false]

/-- The first deposits fork, and their merge leaves the second deposit of the one copy beside it:
there are two heads before and after, and no fork is left that could be reconciled. -/
theorem short_branch_stays :
    (∃ w w', Reachable twoCopies w ∧
      twoCopies.step w (.reconcile true deposits (fun _ => .resolve [5]) fun n => stamp (4+n)) =
        some w' ∧
      heads (w.replica true) = [2,3] ∧ heads (w'.replica true) = [2,4] ∧
      ∀ (resolver : ForkContext ℕ → ResolutionOutcome ℕ) (stamp : ℕ → Stamp),
        (reconcile deposits resolver stamp (w'.replica true)).2 = w'.replica true) ∧
    ¬ ∀ (w : World Bool ℕ) (events : List ℕ) (stamp : ℕ → Stamp), Reachable twoCopies w →
      ∀ r, ∀ p ∈ merges deposits (fun _ => .resolve events) stamp (w.replica r),
        (heads p.2).length < (heads p.1).length := by
  have hrun : (exec twoCopies start shortBranch).bind (fun w => (twoCopies.step w
      (.reconcile true deposits (fun _ => .resolve [5]) fun n => stamp (4+n))).map fun w' =>
        (heads (w.replica true),heads (w'.replica true),(w'.replica true).detectForks,
          (merges deposits (fun _ => .resolve [5]) (fun n => stamp (4+n)) (w.replica true)).map
            fun p => (heads p.1).length - (heads p.2).length)) =
      some ([2,3],[2,4],.ok [],[0]) := by decide +kernel
  obtain ⟨w,hw,hstep⟩ := Option.bind_eq_some_iff.mp hrun
  obtain ⟨w',hw',hvalues⟩ := Option.map_eq_some_iff.mp hstep
  simp only [Prod.mk.injEq] at hvalues
  obtain ⟨hbefore,hafter,hdetect,hmerges⟩ := hvalues
  have hreach : Reachable twoCopies w := start_reachable.exec hw
  refine ⟨⟨w,w',hreach,hw',hbefore,hafter,fun resolver stamp => ?_⟩,fun hall => ?_⟩
  · simp only [reconcile,hdetect,reconcileForks]
  · obtain ⟨p,hp,hnone⟩ := List.mem_map.mp (hmerges ▸ List.mem_singleton_self 0)
    have hlt := hall w [5] (fun n => stamp (4+n)) hreach true p hp
    omega

/-- Two first deposits, which one pass joins for good. -/
theorem reconcile_progress_iff_meet : ∃ W : ℕ → World Bool ℕ,
    exec twoCopies start (divergeOn openOne) = some (W 0) ∧
    (((∀ n, ∀ p ∈ merges deposits (fun _ => .resolve [5]) (fun k => stamp (3+k))
        ((W n).replica true), (heads p.2).length < (heads p.1).length) ∧
        ∃ n, (heads ((W n).replica true)).length = 1) ↔
      ∀ n, Progresses deposits (fun _ => .resolve [5]) ((W n).replica true)) := by
  have hrun : (exec twoCopies start (divergeOn openOne)).bind (fun w => (twoCopies.step w
      (.reconcile true deposits (fun _ => .resolve [5]) fun n => stamp (3+n))).map fun w' =>
        ((w.replica true).files.length,(w'.replica true).detectForks)) = some (2,.ok []) := by
    decide +kernel
  obtain ⟨w,hw,hstep⟩ := Option.bind_eq_some_iff.mp hrun
  obtain ⟨w',hw',hvalues⟩ := Option.map_eq_some_iff.mp hstep
  obtain ⟨hfiles,hdetect⟩ := Prod.mk.inj hvalues
  -- the second pass finds nothing to do, and so does every later one
  have hidle : twoCopies.step w' (.reconcile true deposits (fun _ => .resolve [5])
      fun n => stamp (3+n)) = some w' := by
    simp [twoCopies,system,World.step,forkCount,hdetect,drawnIds,reconcile,reconcileForks]
  let W : ℕ → World Bool ℕ := fun n => if n = 0 then w else w'
  have hsteps : ∀ n, twoCopies.step (W n) (.reconcile true deposits (fun _ => .resolve [5])
      fun k => stamp (3+k)) = some (W (n+1)) := by
    intro n
    cases n with
    | zero => exact hw'
    | succ n => exact hidle
  have hsome : ((W 0).replica true).files ≠ [] :=
    List.ne_nil_of_length_pos (show 0 < (w.replica true).files.length by rw [hfiles]; decide)
  exact ⟨W,hw,(reconcile_progress_iff (start_reachable.exec hw) hsome deposits
    (fun _ => .resolve [5]) hsteps).2⟩

end Scenarios

end ReconcileProgress
end EventCore
