import Mathlib

/-!
# Computations with a record

A `Traced` value comes with the list of what was done for it, in order. A function of the program is
traced by a function of the same shape that notes what is to be recorded; to forget the record gives
the function back.

Two runs are compared by `Traced.Agree`: they leave the same record, and their results are in a
relation. If every step of a loop agrees with the same step of another run, whenever the states
before it are in the relation, then the loops agree (`Agree.foldlM`).
-/

namespace SymmetricCrypto

/-- A result with a record of what was done for it. -/
structure Traced (ε α : Type) where
  /-- The result. -/
  value : α
  /-- What was done, in order. -/
  trace : List ε

namespace Traced

variable {ε δ α β : Type}

/-- A computation and then another one: the records are put one after the other. -/
instance : Monad (Traced ε) where
  pure a := ⟨a, []⟩
  bind x f := ⟨(f x.value).value, x.trace ++ (f x.value).trace⟩

/-- Something to be recorded. -/
def note (event : ε) : Traced ε Unit := ⟨(), [event]⟩

/-- The same result with the record in other words. -/
def relabel (f : ε → δ) (x : Traced ε α) : Traced δ α := ⟨x.value, x.trace.map f⟩

/-- A value that nothing was done for. -/
@[simp] theorem value_pure (a : α) : (pure a : Traced ε α).value = a := rfl

/-- It has an empty record. -/
@[simp] theorem trace_pure (a : α) : (pure a : Traced ε α).trace = [] := rfl

/-- The result of the second computation. -/
@[simp] theorem value_bind (x : Traced ε α) (f : α → Traced ε β) :
    (x >>= f).value = (f x.value).value := rfl

/-- The records of both. -/
@[simp] theorem trace_bind (x : Traced ε α) (f : α → Traced ε β) :
    (x >>= f).trace = x.trace ++ (f x.value).trace := rfl

/-- A note is recorded. -/
@[simp] theorem trace_note (event : ε) : (note event).trace = [event] := rfl

/-- The result stays. -/
@[simp] theorem value_relabel (f : ε → δ) (x : Traced ε α) : (x.relabel f).value = x.value := rfl

/-- The record is in other words. -/
@[simp] theorem trace_relabel (f : ε → δ) (x : Traced ε α) :
    (x.relabel f).trace = x.trace.map f := rfl

/-- Records are put together in any order of brackets. -/
instance : LawfulMonad (Traced ε) :=
  LawfulMonad.mk' _ (fun x => congrArg (Traced.mk x.value) (List.append_nil x.trace))
    (fun _ _ => rfl) (fun x _ _ => congrArg (Traced.mk _) (List.append_assoc x.trace _ _))

/-- The record aside, a traced loop over a state is the loop. -/
theorem value_foldlM {step : β → α → Traced ε β} {f : β → α → β}
    (h : ∀ b a, (step b a).value = f b a) (l : List α) (b : β) :
    (l.foldlM step b).value = l.foldl f b := by
  induction l generalizing b with
  | nil => rfl
  | cons a l ih => rw [List.foldlM_cons, value_bind, ih, h, List.foldl_cons]

/-- The record aside, a traced loop without a state is the loop. -/
theorem value_mapM {step : α → Traced ε β} {f : α → β} (h : ∀ a, (step a).value = f a)
    (l : List α) : (l.mapM step).value = l.map f := by
  induction l with
  | nil => rfl
  | cons a l ih => rw [List.mapM_cons, value_bind, value_bind, value_pure, ih, h, List.map_cons]

/-- Two runs leave the same record, and their results are in a relation. -/
structure Agree (R : α → β → Prop) (x : Traced ε α) (y : Traced ε β) : Prop where
  /-- The records are equal. -/
  trace_eq : x.trace = y.trace
  /-- The results are in the relation. -/
  values : R x.value y.value

namespace Agree

variable {α' β' : Type} {R : α → α' → Prop} {S : β → β' → Prop}

/-- Values that nothing was done for agree if they are related. -/
theorem pure {a : α} {a' : α'} (h : R a a') :
    Agree R (Pure.pure a : Traced ε α) (Pure.pure a' : Traced ε α') :=
  ⟨rfl, h⟩

/-- A note does not tell the runs apart. -/
theorem note (event : ε) : Agree (fun _ _ => True) (Traced.note event) (Traced.note event) :=
  ⟨rfl, trivial⟩

/-- Runs that agree go on with runs that agree whenever they start from related results. -/
theorem bind {x : Traced ε α} {x' : Traced ε α'} {f : α → Traced ε β} {f' : α' → Traced ε β'}
    (hx : Agree R x x') (hf : ∀ a a', R a a' → Agree S (f a) (f' a')) :
    Agree S (x >>= f) (x' >>= f') := by
  have hrest := hf _ _ hx.values
  exact ⟨by rw [trace_bind, trace_bind, hx.trace_eq, hrest.trace_eq], hrest.values⟩

/-- Loops over related lists agree if their steps do. -/
theorem foldlM₂ {γ γ' : Type} {Q : γ → γ' → Prop} {step : β → γ → Traced ε β}
    {step' : β' → γ' → Traced ε β'}
    (hstep : ∀ b b' c c', S b b' → Q c c' → Agree S (step b c) (step' b' c'))
    {l : List γ} {l' : List γ'} (hl : List.Forall₂ Q l l') {b : β} {b' : β'} (hb : S b b') :
    Agree S (l.foldlM step b) (l'.foldlM step' b') := by
  induction hl generalizing b b' with
  | nil => exact Agree.pure hb
  | cons hc _ ih => exact (hstep _ _ _ _ hb hc).bind fun _ _ hnext => ih hnext

/-- Loops over one list agree if their steps do. -/
theorem foldlM {γ : Type} {step : β → γ → Traced ε β} {step' : β' → γ → Traced ε β'}
    (hstep : ∀ b b' c, S b b' → Agree S (step b c) (step' b' c)) {l : List γ} {b : β} {b' : β'}
    (hb : S b b') : Agree S (l.foldlM step b) (l.foldlM step' b') := by
  have hl : List.Forall₂ Eq l l := List.forall₂_refl l
  refine foldlM₂ (fun b b' c c' hb hc => ?_) hl hb
  rw [← hc]
  exact hstep b b' c hb

/-- Loops without a state agree if their steps do. -/
theorem mapM {γ : Type} {step : γ → Traced ε α} {step' : γ → Traced ε α'} {l : List γ}
    (hstep : ∀ c, Agree R (step c) (step' c)) :
    Agree (List.Forall₂ R) (l.mapM step) (l.mapM step') := by
  induction l with
  | nil => exact Agree.pure .nil
  | cons c l ih =>
    rw [List.mapM_cons, List.mapM_cons]
    exact (hstep c).bind fun _ _ hfirst => ih.bind fun _ _ hrest => Agree.pure (.cons hfirst hrest)

end Agree

end Traced

end SymmetricCrypto
