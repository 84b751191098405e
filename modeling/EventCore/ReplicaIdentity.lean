import EventCore.CheckpointFiles

/-! The write identity of a working copy: an id in a file, bound to the fingerprint of the place
it was drawn in. Cloning, `cp -r` at any moment, moving and crashing never let two working
copies write under one id. -/
namespace EventCore
namespace ReplicaIdentity

open CheckpointFiles

structure ReplicaText extends UuidText where
  parse_empty : parseStr (trim "") = none

/-- What the fingerprint is made of: the machine id, the absolute path and the inode of `.git`. -/
structure Environment where
  machine : String
  path : String
  git : String

def computeFingerprint (environment : Environment) : String :=
  "machine=" ++ environment.machine ++ ";path=" ++ environment.path ++ ";git=" ++ environment.git

theorem computeFingerprint_ne (environment : Environment) :
    computeFingerprint environment ≠ "" := by
  intro h
  have hlist := congrArg String.toList h
  simp [computeFingerprint] at hlist

structure ReplicaFiles where
  replicaId : Option String := none
  fingerprint : Option String := none
  deriving DecidableEq

inductive Loaded
  | recorded (id : Uuid)
  | corrupted
  | regenerate
  deriving DecidableEq

/-- `load_or_create_replica_id` up to the regeneration. -/
def loadOrCreateReplicaId (text : ReplicaText) (files : ReplicaFiles) (config : Option Uuid)
    (current : String) : Loaded :=
  match config with
  | some id => .recorded id
  | none =>
    match files.replicaId with
    | none => .regenerate
    | some contents =>
      match text.parseStr (trim contents) with
      | none => .corrupted
      | some recorded =>
        if files.fingerprint = some current then .recorded recorded else .regenerate

/-- How far a regeneration is; each file is emptied and then written. -/
inductive Stage
  | drawn
  | emptiedId
  | wroteId
  | emptiedFingerprint
  deriving DecidableEq

structure Regeneration where
  id : Uuid
  fingerprint : String
  stage : Stage

/-- The working copies there are, and their regenerations under way. Kept for the record: which
copy was opened with which fingerprint, drew which id, and was given which id to write under. -/
structure World (ι : Type) where
  copies : ι → Option ReplicaFiles
  opening : ι → Option Regeneration
  opened : List (ι × String)
  drawn : List (ι × Uuid)
  used : List (ι × Uuid)

/-- `cp` may come at any moment; a move is an open elsewhere. -/
inductive Label (ι : Type)
  | clone (copy : ι)
  | cp (source copy : ι)
  | openStore (copy : ι) (environment : Environment) (now : Uuid)
  | advance (copy : ι)
  | crash (copy : ι)

section System

variable {ι : Type} [DecidableEq ι] (text : ReplicaText)

/-- A clone has neither file, since both are ignored by git. -/
def World.step (w : World ι) : Label ι → Option (World ι)
  | .clone d =>
    match w.copies d with
    | none => some { w with copies := Function.update w.copies d (some {}) }
    | some _ => none
  | .cp c d =>
    match w.copies c, w.copies d with
    | some files, none => some { w with copies := Function.update w.copies d (some files) }
    | _, _ => none
  | .openStore c environment now =>
    match w.copies c, w.opening c with
    | some files, none =>
      let current := computeFingerprint environment
      let w := { w with opened := (c,current) :: w.opened }
      match loadOrCreateReplicaId text files none current with
      | .recorded id => some { w with used := (c,id) :: w.used }
      | .corrupted => some w
      | .regenerate => some
          { w with
            opening := Function.update w.opening c (some ⟨now,current,.drawn⟩)
            drawn := (c,now) :: w.drawn }
    | _, _ => none
  | .advance c =>
    match w.copies c, w.opening c with
    | some files, some r =>
      match r.stage with
      | .drawn => some
          { w with
            copies := Function.update w.copies c (some { files with replicaId := some "" })
            opening := Function.update w.opening c (some { r with stage := .emptiedId }) }
      | .emptiedId => some
          { w with
            copies := Function.update w.copies c
              (some { files with replicaId := some (text.toString r.id) })
            opening := Function.update w.opening c (some { r with stage := .wroteId }) }
      | .wroteId => some
          { w with
            copies := Function.update w.copies c (some { files with fingerprint := some "" })
            opening := Function.update w.opening c (some { r with stage := .emptiedFingerprint }) }
      | .emptiedFingerprint => some
          { w with
            copies := Function.update w.copies c
              (some { files with fingerprint := some r.fingerprint })
            opening := Function.update w.opening c none
            used := (c,r.id) :: w.used }
    | _, _ => none
  | .crash c => (w.opening c).map fun _ =>
      { w with opening := Function.update w.opening c none }

def system : Runs.System (World ι) (Label ι) where
  init w := w = ⟨fun _ => none,fun _ => none,[],[],[]⟩
  step := World.step text

/-- New ids are new, and a working copy is not opened with a fingerprint that it has recorded from
another one: it does not take the very place of what it was copied from. -/
def Separate (w : World ι) : Label ι → Prop
  | .openStore c environment now =>
    (∀ d, (d,now) ∉ w.drawn) ∧
      ((w.copies c).bind (·.fingerprint) = some (computeFingerprint environment) →
        ∀ d, (d,computeFingerprint environment) ∈ w.opened → d = c)
  | _ => True

instance {n : ℕ} (w : World (Fin n)) : ∀ l, Decidable (Separate w l)
  | .openStore .. => inferInstanceAs (Decidable (_ ∧ _))
  | .clone _ | .cp .. | .advance _ | .crash _ => inferInstanceAs (Decidable True)

/-- A recorded id that parses is the copy's own, or has a fingerprint from elsewhere. -/
def Owns (text : ReplicaText) (w : World ι) (c : ι) (files : ReplicaFiles) : Prop :=
  ∀ contents id, files.replicaId = some contents → text.parseStr (trim contents) = some id →
    (c,id) ∈ w.drawn ∨ ∀ current, files.fingerprint = some current → current ≠ "" →
      ∃ d, d ≠ c ∧ (d,current) ∈ w.opened

structure Inv (w : World ι) : Prop where
  owns : ∀ c files, w.copies c = some files → Owns text w c files
  recorded : ∀ c files current, w.copies c = some files → files.fingerprint = some current →
    current ≠ "" → ∃ d, (d,current) ∈ w.opened
  born : ∀ c current, (c,current) ∈ w.opened → ∃ files, w.copies c = some files
  opening : ∀ c r, w.opening c = some r → (c,r.id) ∈ w.drawn ∧ (c,r.fingerprint) ∈ w.opened ∧
    ∃ files, w.copies c = some files ∧
      (r.stage = .wroteId ∨ r.stage = .emptiedFingerprint →
        files.replicaId = some (text.toString r.id))
  used : ∀ c id, (c,id) ∈ w.used → (c,id) ∈ w.drawn
  apart : ∀ c d id, (c,id) ∈ w.drawn → (d,id) ∈ w.drawn → c = d

variable {text} {w w' : World ι}

omit [DecidableEq ι] in
theorem Owns.mono {c : ι} {files : ReplicaFiles} (h : Owns text w c files)
    (hdrawn : w.drawn ⊆ w'.drawn) (hopened : w.opened ⊆ w'.opened) : Owns text w' c files := by
  intro contents id hid hparse
  refine (h contents id hid hparse).imp (hdrawn ·) fun hother current hcurrent hne => ?_
  obtain ⟨d,hd,hmem⟩ := hother current hcurrent hne
  exact ⟨d,hd,hopened hmem⟩

omit [DecidableEq ι] in
theorem Inv.owns_copy (h : Inv text w) {c d : ι} {files : ReplicaFiles}
    (hc : w.copies c = some files) (hd : w.copies d = none) : Owns text w d files := by
  refine fun contents id hid hparse => .inr fun current hcurrent hne => ?_
  obtain ⟨x,hx⟩ := h.recorded c files current hc hcurrent hne
  refine ⟨x,?_,hx⟩
  rintro rfl
  obtain ⟨files',hfiles'⟩ := h.born x current hx
  rw [hd] at hfiles'
  cases hfiles'

theorem Inv.born_update (h : Inv text w) (c : ι) (files : ReplicaFiles) (d : ι) (current : String)
    (hd : (d,current) ∈ w.opened) :
    ∃ files', Function.update w.copies c (some files) d = some files' := by
  by_cases hdc : d = c
  · subst hdc
    exact ⟨files,Function.update_self ..⟩
  · rw [Function.update_of_ne hdc]
    exact h.born d current hd

theorem Inv.adds (h : Inv text w) {d : ι} {files : ReplicaFiles} (hd : w.copies d = none)
    (howns : Owns text w d files)
    (hrecorded : ∀ current, files.fingerprint = some current → current ≠ "" →
      ∃ x, (x,current) ∈ w.opened) :
    Inv text { w with copies := Function.update w.copies d (some files) } where
  owns c files' hc := by
    rcases update_eq_some.mp hc with ⟨rfl,hfiles⟩ | ⟨hcd,hc⟩
    · obtain rfl := Option.some.inj hfiles
      exact howns
    · exact h.owns c files' hc
  recorded c files' current hc hcurrent hne := by
    rcases update_eq_some.mp hc with ⟨rfl,hfiles⟩ | ⟨hcd,hc⟩
    · obtain rfl := Option.some.inj hfiles
      exact hrecorded current hcurrent hne
    · exact h.recorded c files' current hc hcurrent hne
  born c current hc := h.born_update d files c current hc
  opening c r hr := by
    obtain ⟨hdrawn,hopened,files',hfiles',hstage⟩ := h.opening c r hr
    refine ⟨hdrawn,hopened,files',?_,hstage⟩
    have hcd : c ≠ d := by
      rintro rfl
      rw [hd] at hfiles'
      cases hfiles'
    exact (Function.update_of_ne hcd ..).trans hfiles'
  used := h.used
  apart := h.apart

omit [DecidableEq ι] in
theorem Inv.opens (h : Inv text w) {c : ι} {files : ReplicaFiles} (hc : w.copies c = some files)
    (current : String) : Inv text { w with opened := (c,current) :: w.opened } where
  owns d files' hd :=
    (h.owns d files' hd).mono (List.Subset.refl _) (List.subset_cons_self ..)
  recorded d files' current' hd hcurrent hne := by
    obtain ⟨x,hx⟩ := h.recorded d files' current' hd hcurrent hne
    exact ⟨x,List.mem_cons_of_mem _ hx⟩
  born d current' hd := by
    rcases List.mem_cons.mp hd with heq | hd
    · cases heq
      exact ⟨files,hc⟩
    · exact h.born d current' hd
  opening d r hr := by
    obtain ⟨hdrawn,hopened,hfiles⟩ := h.opening d r hr
    exact ⟨hdrawn,List.mem_cons_of_mem _ hopened,hfiles⟩
  used := h.used
  apart := h.apart

omit [DecidableEq ι] in
theorem Inv.uses (h : Inv text w) {c : ι} {id : Uuid} (hid : (c,id) ∈ w.drawn) :
    Inv text { w with used := (c,id) :: w.used } where
  owns d files hd := (h.owns d files hd).mono (List.Subset.refl _) (List.Subset.refl _)
  recorded := h.recorded
  born := h.born
  opening := h.opening
  used d id' hd := by
    rcases List.mem_cons.mp hd with heq | hd
    · cases heq
      exact hid
    · exact h.used d id' hd
  apart := h.apart

theorem Inv.draws (h : Inv text w) {c : ι} {files : ReplicaFiles} (hc : w.copies c = some files)
    {now : Uuid} (hnow : ∀ d, (d,now) ∉ w.drawn) {current : String}
    (hopened : (c,current) ∈ w.opened) :
    Inv text
      { w with
        opening := Function.update w.opening c (some ⟨now,current,.drawn⟩)
        drawn := (c,now) :: w.drawn } where
  owns d files' hd :=
    (h.owns d files' hd).mono (List.subset_cons_self ..) (List.Subset.refl _)
  recorded := h.recorded
  born := h.born
  opening d r hr := by
    rcases update_eq_some.mp hr with ⟨rfl,hsome⟩ | ⟨-,hother⟩
    · obtain rfl := Option.some.inj hsome
      exact ⟨List.mem_cons_self ..,hopened,files,hc,by simp⟩
    · obtain ⟨hdrawn,hrest⟩ := h.opening d r hother
      exact ⟨List.mem_cons_of_mem _ hdrawn,hrest⟩
  used d id hd := List.mem_cons_of_mem _ (h.used d id hd)
  apart d e id hd he := by
    rcases List.mem_cons.mp hd with hd | hd
    · rcases List.mem_cons.mp he with he | he
      · exact (Prod.mk.inj hd).1.trans (Prod.mk.inj he).1.symm
      · exact absurd ((Prod.mk.inj hd).2 ▸ he) (hnow e)
    · rcases List.mem_cons.mp he with he | he
      · exact absurd ((Prod.mk.inj he).2 ▸ hd) (hnow d)
      · exact h.apart d e id hd he

theorem Inv.rewrites (h : Inv text w) {c : ι} {r : Regeneration} (hr : w.opening c = some r)
    {files : ReplicaFiles} (howns : Owns text w c files)
    (hrecorded : ∀ current, files.fingerprint = some current → current ≠ "" →
      ∃ x, (x,current) ∈ w.opened) {stage : Stage}
    (hstage : stage = .wroteId ∨ stage = .emptiedFingerprint →
      files.replicaId = some (text.toString r.id)) :
    Inv text
      { w with
        copies := Function.update w.copies c (some files)
        opening := Function.update w.opening c (some { r with stage := stage }) } where
  owns d files' hd := by
    rcases update_eq_some.mp hd with ⟨rfl,hfiles⟩ | ⟨-,hd⟩
    · obtain rfl := Option.some.inj hfiles
      exact howns
    · exact h.owns d files' hd
  recorded d files' current hd hcurrent hne := by
    rcases update_eq_some.mp hd with ⟨rfl,hfiles⟩ | ⟨-,hd⟩
    · obtain rfl := Option.some.inj hfiles
      exact hrecorded current hcurrent hne
    · exact h.recorded d files' current hd hcurrent hne
  born d current hd := h.born_update c files d current hd
  opening d r' hr' := by
    rcases update_eq_some.mp hr' with ⟨rfl,hsome⟩ | ⟨hdc,hother⟩
    · obtain rfl := Option.some.inj hsome
      obtain ⟨hdrawn,hopened,-⟩ := h.opening d r hr
      exact ⟨hdrawn,hopened,files,Function.update_self ..,hstage⟩
    · obtain ⟨hdrawn,hopened,files',hfiles',hstage'⟩ := h.opening d r' hother
      exact ⟨hdrawn,hopened,files',(Function.update_of_ne hdc ..).trans hfiles',hstage'⟩
  used := h.used
  apart := h.apart

theorem Inv.stops (h : Inv text w) (c : ι) :
    Inv text { w with opening := Function.update w.opening c none } where
  owns := h.owns
  recorded := h.recorded
  born := h.born
  opening d r hr := by
    rcases update_eq_some.mp hr with ⟨-,hnone⟩ | ⟨-,hr⟩
    · cases hnone
    · exact h.opening d r hr
  used := h.used
  apart := h.apart

theorem Inv.advances (h : Inv text w) {c : ι}
    (hstep : w.step text (.advance c) = some w') : Inv text w' := by
  simp only [World.step] at hstep
  split at hstep
  · next files r hc hr =>
    obtain ⟨hdrawn,hopened,files',hfiles,hwrote⟩ := h.opening c r hr
    obtain rfl : files = files' := Option.some.inj (hc.symm.trans hfiles)
    have hrecorded := fun current => h.recorded c files current hc
    have hid : ∀ fingerprint, Owns text w c ⟨some (text.toString r.id),fingerprint⟩ := by
      intro fingerprint contents id hcontents hparse
      obtain rfl := Option.some.inj hcontents
      rw [text.parse_trim] at hparse
      exact .inl (Option.some.inj hparse ▸ hdrawn)
    split at hstep
    · cases hstep
      have howns : Owns text w c { files with replicaId := some "" } := by
        intro contents id hcontents hparse
        obtain rfl := Option.some.inj hcontents
        rw [text.parse_empty] at hparse
        cases hparse
      refine h.rewrites hr howns hrecorded fun hlater => ?_
      rcases hlater with hlater | hlater <;> cases hlater
    · cases hstep
      exact h.rewrites hr (hid _) hrecorded fun _ => rfl
    · next hstage =>
      cases hstep
      have hwritten := hwrote (.inl hstage)
      refine h.rewrites hr ?_ ?_ fun _ => hwritten
      · exact hwritten ▸ hid (some "")
      · intro current hcurrent hne
        exact absurd (Option.some.inj hcurrent).symm hne
    · next hstage =>
      cases hstep
      have hwritten := hwrote (.inr hstage)
      have howns : Owns text w c { files with fingerprint := some r.fingerprint } :=
        hwritten ▸ hid (some r.fingerprint)
      have hrewritten := h.rewrites hr howns (fun current hcurrent _ =>
        ⟨c,Option.some.inj hcurrent ▸ hopened⟩) (fun _ : r.stage = _ ∨ r.stage = _ => hwritten)
      have hused := hrewritten.uses hdrawn
      have hstopped := hused.stops c
      rw [Function.update_idem] at hstopped
      exact hstopped
  · cases hstep

omit [DecidableEq ι] in
theorem Inv.drawn_of_recorded (h : Inv text w) {c : ι} {files : ReplicaFiles}
    (hc : w.copies c = some files) {environment : Environment} {now id : Uuid}
    (hsep : Separate w (.openStore c environment now))
    (hload : loadOrCreateReplicaId text files none (computeFingerprint environment) =
      .recorded id) : (c,id) ∈ w.drawn := by
  simp only [loadOrCreateReplicaId] at hload
  split at hload
  · cases hload
  · next contents hcontents =>
    split at hload
    · cases hload
    · next recorded hparse =>
      split_ifs at hload with hmatch
      obtain rfl := Loaded.recorded.inj hload
      rcases h.owns c files hc contents recorded hcontents hparse with hdrawn | hother
      · exact hdrawn
      · obtain ⟨d,hd,hopened⟩ := hother _ hmatch (computeFingerprint_ne environment)
        have hrecorded : (w.copies c).bind (·.fingerprint) = some (computeFingerprint environment) := by
          rw [hc]
          exact hmatch
        exact absurd (hsep.2 hrecorded d hopened) hd

theorem Inv.step (h : Inv text w) {l : Label ι} (hl : Separate w l)
    (hstep : w.step text l = some w') : Inv text w' := by
  cases l with
  | clone d =>
    simp only [World.step] at hstep
    split at hstep
    · next hd =>
      cases hstep
      refine h.adds hd ?_ ?_
      · intro contents id hcontents
        cases hcontents
      · intro current hcurrent
        cases hcurrent
    · cases hstep
  | cp c d =>
    simp only [World.step] at hstep
    split at hstep
    · next files hc hd =>
      cases hstep
      exact h.adds hd (h.owns_copy hc hd) fun current => h.recorded c files current hc
    · cases hstep
  | openStore c environment now =>
    simp only [World.step] at hstep
    split at hstep
    · next files hc hnone =>
      have hopens := h.opens hc (computeFingerprint environment)
      split at hstep
      · next id hload =>
        cases hstep
        exact hopens.uses (h.drawn_of_recorded hc hl hload)
      · cases hstep
        exact hopens
      · cases hstep
        exact hopens.draws hc hl.1 (List.mem_cons_self ..)
    · cases hstep
  | advance c => exact h.advances hstep
  | crash c =>
    obtain ⟨r,-,rfl⟩ := Option.map_eq_some_iff.mp hstep
    exact h.stops c

/-- However working copies are cloned, copied with `cp -r` at any moment, opened, moved and crash,
no two of them are ever given one id to write under, as long as none takes the very place that
its fingerprint was recorded in by another. Opens with an explicit replica id, which is used as it
is, are left out. -/
theorem replica_ids_apart {w : World ι} (h : Runs.ReachableBy (system text) Separate w) {c d : ι}
    {id : Uuid} (hc : (c,id) ∈ w.used) (hd : (d,id) ∈ w.used) : c = d := by
  have hinv : Inv text w := by
    refine Runs.ReachableBy.invariant (I := Inv text) ?_ ?_ h
    · rintro w rfl
      exact ⟨by simp,by simp,by simp,by simp,by simp,by simp⟩
    · exact fun w l w' hinv hl hstep => hinv.step hl hstep
  exact hinv.apart c d id (hinv.used c id hc) (hinv.used d id hd)

end System

def marks : ReplicaText where
  toString uuid := String.ofList (List.replicate (uuid + 1) '|')
  parseStr s := if s.length = 0 then none else some (s.length - 1)
  parse_trim uuid := by
    have hstroke : isWhitespace '|' = false := by decide
    simp [trim,trimChars,List.rdropWhile,hstroke]
  parse_empty := by decide

/-- The first copy is copied between the two writes of its regeneration, and both are opened. -/
def copied : List (Label (Fin 2)) :=
  [.clone 0,.openStore 0 ⟨"m","/a","1"⟩ 0,.advance 0,.advance 0,.cp 0 1,.advance 0,.advance 0,
    .openStore 1 ⟨"m","/b","2"⟩ 1,.advance 1,.advance 1,.advance 1,.advance 1,
    .openStore 0 ⟨"m","/a","1"⟩ 2]

/-- The copy draws an id of its own; the copied one keeps its own. -/
theorem replica_ids_apart_copied :
    ∃ w, Runs.exec (system marks) ⟨fun _ => none,fun _ => none,[],[],[]⟩ copied = some w ∧
      w.used = [(0,0),(1,1),(0,0)] ∧ ∀ c d id, (c,id) ∈ w.used → (d,id) ∈ w.used → c = d := by
  obtain ⟨w,hw,hused⟩ : ∃ w, Runs.exec (system marks) ⟨fun _ => none,fun _ => none,[],[],[]⟩
      copied = some w ∧ w.used = [(0,0),(1,1),(0,0)] := ⟨_,rfl,by decide⟩
  have hseparate : Runs.AllSteps (system marks) Separate ⟨fun _ => none,fun _ => none,[],[],[]⟩
      copied := by decide
  exact ⟨w,hw,hused,fun c d id =>
    replica_ids_apart (Runs.ReachableBy.exec (.init rfl) hseparate hw)⟩

end ReplicaIdentity
end EventCore
