import EventCore.ProjectorCoordinators

/-! The checkpoint store of the file backend: one file for each subscription, written to a
temporary file beside it and renamed, with crashes between any two steps. As long as each
subscription has one writer at a time, loading finds the last position that was renamed. -/
namespace EventCore
namespace CheckpointFiles

open ProjectorCoordinators

/-- `Uuid` as text: what is printed is parsed back, also once trimmed. -/
structure UuidText where
  toString : Uuid → String
  parseStr : String → Option Uuid
  parse_trim : ∀ uuid, parseStr (trim (toString uuid)) = some uuid

section Paths

/-- `Path::with_extension` on a file name: what stands after the last dot goes, if anything stands
before it. -/
def withExtension (file extension : String) : String :=
  let reversed := file.toList.reverse
  let stem := match reversed.dropWhile (· ≠ '.') with
    | _ :: before => if before = [] then file.toList else before.reverse
    | [] => file.toList
  String.ofList (stem ++ '.' :: extension.toList)

def path (name : String) : String := sanitize name ++ ".json"

def tmp (name : String) : String := withExtension (path name) "json.tmp"

theorem path_injective : Function.Injective path := by
  intro a b h
  refine sanitize_injective (String.toList_injective ?_)
  have hlist := congrArg String.toList h
  simp only [path,String.toList_append] at hlist
  exact List.append_cancel_right hlist

theorem tmp_eq (name : String) : (tmp name).toList =
    (if sanitize name = "" then ".json".toList else (sanitize name).toList) ++
      ".json.tmp".toList := by
  have hjson : ".json".toList.reverse = "nosj".toList ++ ['.'] := by decide
  have hreversed : (path name).toList.reverse =
      "nosj".toList ++ '.' :: (sanitize name).toList.reverse := by
    rw [path,String.toList_append,List.reverse_append,hjson,List.append_assoc]
    rfl
  have hdrop : (path name).toList.reverse.dropWhile (· ≠ '.') =
      '.' :: (sanitize name).toList.reverse := by
    rw [hreversed]
    rfl
  rw [tmp,withExtension,String.toList_ofList,hdrop]
  by_cases hempty : sanitize name = ""
  · simp [hempty,path]
  · have hne : (sanitize name).toList.reverse ≠ [] := by
      simpa using hempty
    simp [hempty,hne]

theorem dot_notMem_sanitize (name : String) : '.' ∉ (sanitize name).toList := by
  have hdigit : ∀ n : Fin 16, Nat.digitChar n ≠ '.' := by decide
  simp only [sanitize,String.toList_ofList,List.mem_flatMap,TransactionFiles.hexByte,not_exists,
    not_and]
  intro byte _ hdot
  have hbyte := byte.toNat_lt
  rcases List.mem_pair.mp hdot with hdot | hdot
  · exact hdigit ⟨byte.toNat/16,by omega⟩ hdot.symm
  · exact hdigit ⟨byte.toNat%16,by omega⟩ hdot.symm

theorem tmp_injective : Function.Injective tmp := by
  intro a b h
  have hlist := congrArg String.toList h
  rw [tmp_eq,tmp_eq] at hlist
  have hstem := List.append_cancel_right hlist
  have hdot : '.' ∈ ".json".toList := by decide
  split_ifs at hstem with ha hb hb
  · exact sanitize_injective (ha.trans hb.symm)
  · exact absurd (hstem ▸ hdot) (dot_notMem_sanitize b)
  · exact absurd (hstem ▸ hdot) (dot_notMem_sanitize a)
  · exact sanitize_injective (String.toList_injective hstem)

theorem tmp_ne_path (a b : String) : tmp a ≠ path b := by
  intro h
  have hlast := congrArg (fun s : String => s.toList.getLast?) h
  simp [tmp_eq,path] at hlast

end Paths

section Store

abbrev Files : Type := String → Option String

inductive CheckpointError
  | corrupted (path : String)
  deriving DecidableEq

/-- Errors other than a missing file are left out. -/
def load (text : UuidText) (files : Files) (name : String) :
    Except CheckpointError (Option Uuid) :=
  match files (path name) with
  | none => .ok none
  | some contents =>
    match text.parseStr (trim contents) with
    | some uuid => .ok (some uuid)
    | none => .error (.corrupted (path name))

/-- A save under way, with so many characters written to its temporary file. -/
structure Saving where
  name : String
  position : Uuid
  written : ℕ

/-- The files, the saves under way, and the position renamed last under each name. -/
structure World (ι : Type) where
  files : Files
  saves : ι → Option Saving
  committed : String → Option Uuid

inductive Label (ι : Type)
  | create (call : ι) (name : String) (position : Uuid)
  | write (call : ι) (written : ℕ)
  | rename (call : ι)
  | crash (call : ι)

variable {ι : Type} [DecidableEq ι] (text : UuidText)

/-- `fs::write` creates or empties the file and fills it in pieces; then comes `fs::rename`. -/
def World.step (w : World ι) : Label ι → Option (World ι)
  | .create i name position =>
    match w.saves i with
    | none => some
        { w with
          files := Function.update w.files (tmp name) (some "")
          saves := Function.update w.saves i (some ⟨name,position,0⟩) }
    | some _ => none
  | .write i written => (w.saves i).bind fun save =>
      if save.written < written ∧ written ≤ (text.toString save.position).length then some
        { w with
          files := Function.update w.files (tmp save.name)
            (some (String.ofList ((text.toString save.position).toList.take written)))
          saves := Function.update w.saves i (some { save with written := written }) }
      else none
  | .rename i => (w.saves i).bind fun save =>
      if save.written = (text.toString save.position).length then some
        { files := Function.update
            (Function.update w.files (path save.name) (w.files (tmp save.name)))
            (tmp save.name) none
          saves := Function.update w.saves i none
          committed := Function.update w.committed save.name (some save.position) }
      else none
  | .crash i => (w.saves i).map fun _ => { w with saves := Function.update w.saves i none }

def system : Runs.System (World ι) (Label ι) where
  init w := w = ⟨fun _ => none,fun _ => none,fun _ => none⟩
  step := World.step text

/-- A save begins only while no other one of its subscription is under way. -/
def OneWriter (w : World ι) : Label ι → Prop
  | .create _ name _ => ∀ j save, w.saves j = some save → save.name ≠ name
  | _ => True

instance {n : ℕ} (w : World (Fin n)) : ∀ l, Decidable (OneWriter w l)
  | .create _ name _ => decidable_of_iff
      (∀ j, (w.saves j).all (fun save => save.name ≠ name) = true) (by
        refine forall_congr' fun j => ?_
        cases w.saves j <;> simp)
  | .write .. => isTrue trivial
  | .rename _ => isTrue trivial
  | .crash _ => isTrue trivial

structure Inv (files : Files) (saves : ι → Option Saving) (committed : String → Option Uuid) :
    Prop where
  checkpoints : ∀ name, files (path name) = (committed name).map text.toString
  tmp : ∀ i save, saves i = some save → files (tmp save.name) =
    some (String.ofList ((text.toString save.position).toList.take save.written))
  alone : ∀ i j save save', saves i = some save → saves j = some save' →
    save.name = save'.name → i = j

variable {text} {files : Files} {saves : ι → Option Saving} {committed : String → Option Uuid}
  {i : ι} {save : Saving}

omit [DecidableEq ι] in
theorem update_eq_some {κ α : Type} [DecidableEq κ] {f : κ → Option α} {i j : κ} {a : Option α}
    {b : α} : Function.update f i a j = some b ↔ j = i ∧ a = some b ∨ j ≠ i ∧ f j = some b := by
  by_cases hji : j = i
  · subst hji
    simp
  · simp [hji]

theorem Inv.writes (h : Inv text files saves committed) {s : Saving}
    (hone : ∀ j other, j ≠ i → saves j = some other → other.name ≠ s.name) :
    Inv text
      (Function.update files (CheckpointFiles.tmp s.name)
        (some (String.ofList ((text.toString s.position).toList.take s.written))))
      (Function.update saves i (some s)) committed := by
  refine ⟨fun other => ?_,fun j other hj => ?_,fun j k other other' hj hk hname => ?_⟩
  · rw [Function.update_of_ne (tmp_ne_path s.name other).symm]
    exact h.checkpoints other
  · rcases update_eq_some.mp hj with ⟨-,hsave⟩ | ⟨hji,hj⟩
    · obtain rfl := Option.some.inj hsave
      exact Function.update_self ..
    · have hne : CheckpointFiles.tmp other.name ≠ CheckpointFiles.tmp s.name :=
        fun heq => hone j other hji hj (tmp_injective heq)
      rw [Function.update_of_ne hne]
      exact h.tmp j other hj
  · rcases update_eq_some.mp hj with ⟨rfl,hsave⟩ | ⟨hji,hj'⟩
    · obtain rfl := Option.some.inj hsave
      rcases update_eq_some.mp hk with ⟨rfl,-⟩ | ⟨hki,hk'⟩
      · rfl
      · exact absurd hname.symm (hone k other' hki hk')
    · rcases update_eq_some.mp hk with ⟨rfl,hsave⟩ | ⟨hki,hk'⟩
      · obtain rfl := Option.some.inj hsave
        exact absurd hname (hone j other hji hj')
      · exact h.alone j k other other' hj' hk' hname

omit [DecidableEq ι] in
theorem Inv.only (h : Inv text files saves committed) (hi : saves i = some save) :
    ∀ j other, j ≠ i → saves j = some other → other.name ≠ save.name :=
  fun j other hji hj hname => hji (h.alone j i other save hj hi hname)

theorem Inv.ends (h : Inv text files saves committed) :
    Inv text files (Function.update saves i none) committed := by
  have hold : ∀ {j save}, Function.update saves i none j = some save → saves j = some save := by
    intro j save hj
    rcases update_eq_some.mp hj with ⟨-,hnone⟩ | ⟨-,hj⟩
    · cases hnone
    · exact hj
  exact ⟨h.checkpoints,fun j save hj => h.tmp j save (hold hj),
    fun j k save save' hj hk => h.alone j k save save' (hold hj) (hold hk)⟩

theorem Inv.renames (h : Inv text files saves committed) (hi : saves i = some save)
    (hwritten : save.written = (text.toString save.position).length) :
    Inv text
      (Function.update
        (Function.update files (path save.name) (files (CheckpointFiles.tmp save.name)))
        (CheckpointFiles.tmp save.name) none)
      (Function.update saves i none)
      (Function.update committed save.name (some save.position)) := by
  have hends : Inv text files (Function.update saves i none) committed := h.ends
  refine ⟨fun other => ?_,fun j other hj => ?_,hends.alone⟩
  · rw [Function.update_of_ne (tmp_ne_path save.name other).symm]
    by_cases hname : other = save.name
    · subst hname
      rw [Function.update_self,Function.update_self,h.tmp i save hi,hwritten]
      have hwhole : (text.toString save.position).toList.take (text.toString save.position).length =
          (text.toString save.position).toList := List.take_of_length_le (by rw [String.length_toList])
      rw [hwhole,String.ofList_toList]
      rfl
    · rw [Function.update_of_ne (fun heq => hname (path_injective heq)),
        Function.update_of_ne hname]
      exact h.checkpoints other
  · rcases update_eq_some.mp hj with ⟨-,hnone⟩ | ⟨hji,hj⟩
    · cases hnone
    · have hne : CheckpointFiles.tmp other.name ≠ CheckpointFiles.tmp save.name :=
        fun heq => h.only hi j other hji hj (tmp_injective heq)
      rw [Function.update_of_ne hne,Function.update_of_ne (tmp_ne_path other.name save.name)]
      exact h.tmp j other hj

theorem Inv.step {w w' : World ι} (h : Inv text w.files w.saves w.committed) {l : Label ι}
    (hl : OneWriter w l) (hstep : w.step text l = some w') :
    Inv text w'.files w'.saves w'.committed := by
  cases l with
  | create i name position =>
    cases hi : w.saves i with
    | some save => simp [World.step,hi] at hstep
    | none =>
      simp only [World.step,hi,Option.some.injEq] at hstep
      subst hstep
      have hempty := h.writes (i := i) (s := ⟨name,position,0⟩) fun j other _ hj => hl j other hj
      simpa only [List.take_zero] using hempty
  | write i written =>
    simp only [World.step,Option.bind_eq_some_iff] at hstep
    obtain ⟨save,hi,hstep⟩ := hstep
    split_ifs at hstep with hmore
    obtain rfl := Option.some.inj hstep
    have hmore := h.writes (i := i) (s := { save with written := written })
      fun j other hji hj => h.only hi j other hji hj
    simpa only using hmore
  | rename i =>
    simp only [World.step,Option.bind_eq_some_iff] at hstep
    obtain ⟨save,hi,hstep⟩ := hstep
    split_ifs at hstep with hwritten
    obtain rfl := Option.some.inj hstep
    have hrenamed := h.renames hi hwritten
    simpa only using hrenamed
  | crash i =>
    simp only [World.step,Option.map_eq_some_iff] at hstep
    obtain ⟨save,hi,rfl⟩ := hstep
    have hended := h.ends (i := i)
    simpa only using hended

/-- However saves of any subscriptions interleave and wherever they crash, loading finds exactly
the position that was renamed last under that name, and never a torn or a foreign one, as long
as no two saves of one subscription are under way at once. -/
theorem load_finds_committed {w : World ι}
    (h : Runs.ReachableBy (system text) OneWriter w) (name : String) :
    load text w.files name = .ok (w.committed name) := by
  have hinv : Inv text w.files w.saves w.committed := by
    refine Runs.ReachableBy.invariant (I := fun w => Inv text w.files w.saves w.committed) ?_ ?_ h
    · rintro w rfl
      exact ⟨fun _ => rfl,by simp,by simp⟩
    · exact fun w l w' hinv hl hstep => hinv.step hl hstep
  unfold load
  rw [hinv.checkpoints]
  cases w.committed name with
  | none => rfl
  | some position => simp [text.parse_trim]

end Store

def strokes : UuidText where
  toString uuid := String.ofList (List.replicate uuid '|')
  parseStr s := some s.length
  parse_trim uuid := by
    have hstroke : isWhitespace '|' = false := by decide
    simp [trim,trimChars,List.rdropWhile,hstroke]

/-- The first save is torn by a crash between the steps of another subscription's save. -/
def tornSave (first second third : Fin 3) : List (Label (Fin 3)) :=
  [.create first "a" 2,.write first 1,.create second "b" 1,.crash first,.write second 1,
    .rename second,.create third "a" 3,.write third 2,.write third 3,.rename third]

theorem load_finds_committed_torn :
    ∃ w, Runs.exec (system strokes) ⟨fun _ => none,fun _ => none,fun _ => none⟩ (tornSave 0 1 2) = some w ∧
      w.committed "a" = some 3 ∧ load strokes w.files "a" = .ok (w.committed "a") := by
  obtain ⟨w,hw,hcommitted⟩ : ∃ w, Runs.exec (system strokes)
      ⟨fun _ => none,fun _ => none,fun _ => none⟩ (tornSave 0 1 2) = some w ∧
      w.committed "a" = some 3 := ⟨_,rfl,by decide⟩
  have hone : Runs.AllSteps (system strokes) OneWriter
      ⟨fun _ => none,fun _ => none,fun _ => none⟩ (tornSave 0 1 2) := by decide
  exact ⟨w,hw,hcommitted,load_finds_committed (Runs.ReachableBy.exec (.init rfl) hone hw) "a"⟩

/-- A second writer empties the file that the first one renames. -/
example : (Runs.exec (system strokes) ⟨fun _ => none,fun _ => none,fun _ => none⟩
    [.create (0 : Fin 2) "a" 1,.write 0 1,.create 1 "a" 2,.rename 0]).map
      (fun w => w.files (path "a")) = some (some "") := by decide

end CheckpointFiles
end EventCore
