import EventCore.Interaction

/-! One program against a machine that others move as well, with a record of what it exchanged;
and the rules that prove of the record what holds after every request. -/
namespace EventCore
namespace Interaction

variable {I Q : Type} {A : Q → Type} {W C B α β : Type}

/-- A request that was performed: the worlds around it, and its answer. -/
structure Exchange (Q : Type) (A : Q → Type) (W : Type) where
  before : W
  request : Q
  answer : A request
  after : W

/-- What a program has exchanged so far, and what is left of it. Between its requests the others
move the world. -/
inductive Conversation (m : Machine I Q A W C B) (i : I) (others : W → W → Prop) (w : W)
    (p : Program Q A α) : List (Exchange Q A W) → W → Program Q A α → Prop
  | start : Conversation m i others w p [] w p
  | others {l : List (Exchange Q A W)} {w' w'' : W} {p' : Program Q A α} :
      Conversation m i others w p l w' p' → others w' w'' →
        Conversation m i others w p l w'' p'
  | exchange {l : List (Exchange Q A W)} {w' w'' : W} {q : Q} {k : A q → Program Q A α} {c : C}
      {a : A q} : Conversation m i others w p l w' (.ask q k) →
        m.perform w' i q c = some (a,w'') →
        Conversation m i others w p (l ++ [⟨w',q,a,w''⟩]) w'' (k a)

/-- The conversation in which nothing happens but the requests, each going as chosen. -/
def converse (m : Machine I Q A W C B) (i : I) : W → Program Q A α → List C →
    Option (List (Exchange Q A W) × W × Program Q A α)
  | w,p,[] => some ([],w,p)
  | w,.ask q k,c :: cs => (m.perform w i q c).bind fun r =>
      (converse m i r.2 (k r.1) cs).map fun t => (⟨w,q,r.1,r.2⟩ :: t.1,t.2)
  | _,_,_ => none

theorem Conversation.converse {m : Machine I Q A W C B} {i : I} {others : W → W → Prop}
    {w₀ w w' : W} {p₀ p p' : Program Q A α} {l₀ l : List (Exchange Q A W)} {cs : List C}
    (h : Conversation m i others w₀ p₀ l₀ w p)
    (hrun : Interaction.converse m i w p cs = some (l,w',p')) :
    Conversation m i others w₀ p₀ (l₀ ++ l) w' p' := by
  induction cs generalizing l₀ l w p with
  | nil =>
    rw [Interaction.converse.eq_def] at hrun
    cases hrun
    rwa [List.append_nil]
  | cons c cs ih =>
    cases p with
    | done a => cases hrun
    | cut => cases hrun
    | ask q k =>
      obtain ⟨⟨a,w''⟩,hperform,hrest⟩ := Option.bind_eq_some_iff.mp hrun
      obtain ⟨⟨l',w₁,p₁⟩,hrec,heq⟩ := Option.map_eq_some_iff.mp hrest
      cases heq
      rw [List.append_cons]
      exact ih (h.exchange hperform) hrec

section Records

variable (m : Machine I Q A W C B) (i : I) (others : W → W → Prop)
  (kept : List (Exchange Q A W) → Prop)

/-- After every request the record is as `kept` says, and the program ends as `post` says. -/
def Records (post : List (Exchange Q A W) → W → Option α → Prop) :
    List (Exchange Q A W) → W → Program Q A α → Prop
  | l,w,.done a => kept l ∧ post l w (some a)
  | l,w,.cut => kept l ∧ post l w none
  | l,w,.ask q k => kept l ∧ ∀ w', others w w' → ∀ c a w'', m.perform w' i q c = some (a,w'') →
      Records post (l ++ [⟨w',q,a,w''⟩]) w'' (k a)

variable {m i others kept} {l : List (Exchange Q A W)} {w : W}

theorem Records.keep {post : List (Exchange Q A W) → W → Option α → Prop} {p : Program Q A α}
    (h : Records m i others kept post l w p) : kept l := by
  cases p with
  | done | cut | ask => exact h.1

theorem Records.mono {post post' : List (Exchange Q A W) → W → Option α → Prop}
    (h : ∀ l w r, kept l → post l w r → post' l w r) {p : Program Q A α}
    (hp : Records m i others kept post l w p) : Records m i others kept post' l w p := by
  induction p generalizing l w with
  | done a => exact ⟨hp.1,h l w _ hp.1 hp.2⟩
  | cut => exact ⟨hp.1,h l w _ hp.1 hp.2⟩
  | ask q k ih => exact ⟨hp.1,fun w' hw c a w'' hperform => ih a (hp.2 w' hw c a w'' hperform)⟩

theorem Records.bind {post : List (Exchange Q A W) → W → Option β → Prop} {p : Program Q A α}
    {f : α → Program Q A β}
    (hp : Records m i others kept (fun l w r => r.elim (post l w none) fun a =>
      Records m i others kept post l w (f a)) l w p) :
    Records m i others kept post l w (p >>= f) := by
  induction p generalizing l w with
  | done a => exact hp.2
  | cut => exact hp
  | ask q k ih => exact ⟨hp.1,fun w' hw c a w'' hperform => ih a (hp.2 w' hw c a w'' hperform)⟩

theorem Records.bindExcept {ε : Type} {post : List (Exchange Q A W) → W → Option (Except ε β) → Prop}
    {p : ExceptT ε (Program Q A) α} {f : α → ExceptT ε (Program Q A) β}
    (hp : Records m i others kept (fun l w (r : Option (Except ε α)) => match r with
      | none => post l w none
      | some (.error e) => post l w (some (.error e))
      | some (.ok a) => Records m i others kept post l w (f a)) l w p) :
    Records m i others kept post l w (p >>= f : ExceptT ε (Program Q A) β) := by
  refine Records.bind (p := p) (f := ExceptT.bindCont f) (hp.mono ?_)
  intro l w r hkeep hr
  match r with
  | none => exact hr
  | some (.error e) => exact ⟨hkeep,hr⟩
  | some (.ok a) => exact hr

theorem Conversation.records {post : List (Exchange Q A W) → Option α → Prop}
    {p p' : Program Q A α} {w' : W} (htrans : ∀ u v w, others u v → others v w → others u w)
    (hrefl : ∀ w, others w w) (h : Records m i others kept (fun l _ r => post l r) [] w p)
    (hconv : Conversation m i others w p l w' p') :
    Records m i others kept (fun l _ r => post l r) l w' p' := by
  induction hconv with
  | start => exact h
  | @others l w' w'' p' _ hmove ih =>
    cases p' with
    | done a => exact ih
    | cut => exact ih
    | ask q k => exact ⟨ih.1,fun u hu => ih.2 u (htrans _ _ _ hmove hu)⟩
  | exchange _ hperform ih => exact ih.2 _ (hrefl _) _ _ _ hperform

theorem Conversation.sound {post : List (Exchange Q A W) → Option α → Prop} {p p' : Program Q A α}
    {w' : W} (htrans : ∀ u v w, others u v → others v w → others u w)
    (hrefl : ∀ w, others w w) (h : Records m i others kept (fun l _ r => post l r) [] w p)
    (hconv : Conversation m i others w p l w' p') :
    kept l ∧ ∀ r, p'.ended = some r → post l r := by
  have hrecords := hconv.records htrans hrefl h
  refine ⟨hrecords.keep,fun r hr => ?_⟩
  cases p' with
  | done a => exact Option.some.inj hr ▸ hrecords.2
  | cut => exact Option.some.inj hr ▸ hrecords.2
  | ask q k => cases hr

end Records

end Interaction
end EventCore
