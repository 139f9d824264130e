import VisualBasic.Parse.Basic

/-!
# Laws of parsers

Parsers form a lawful monad, so that a parser may be regrouped freely. `Advances p` says that a
match of `p` ends where its start reaches; it holds of a composite parser when it holds of the
parts.
-/

set_option autoImplicit false

namespace VisualBasic

namespace Parse

variable {α β : Type}

theorem pure_apply (value : α) (inside : List Construct) (c : Cursor) :
    (pure value : Parse α) inside c = .matched value c := rfl

theorem bind_apply (p : Parse α) (f : α → Parse β) (inside : List Construct) (c : Cursor) :
    (p >>= f) inside c =
      match p inside c with
      | .matched value after => f value inside after
      | .unmatched => .unmatched
      | .failed failure => .failed failure := rfl

private theorem bind_pure_self (p : Parse α) : (p >>= fun value => pure value) = p := by
  funext inside c
  rw [bind_apply]
  cases p inside c <;> rfl

private theorem bind_assoc_apply {γ : Type} (p : Parse α) (f : α → Parse β) (g : β → Parse γ) :
    (p >>= f >>= g) = p >>= fun value => f value >>= g := by
  funext inside c
  simp only [bind_apply]
  cases p inside c <;> rfl

instance : LawfulMonad Parse :=
  LawfulMonad.mk' Parse bind_pure_self (fun _ _ => rfl) bind_assoc_apply

/-- A match ends where its start reaches. -/
def Advances (p : Parse α) : Prop :=
  ∀ inside c value after, p inside c = .matched value after → Cursor.Reaches c after

theorem advances_pure (value : α) : Advances (pure value) := by
  intro inside c value' after h
  cases h
  exact Cursor.Reaches.refl c

theorem advances_bind {p : Parse α} {f : α → Parse β} (hp : Advances p)
    (hf : ∀ value, Advances (f value)) : Advances (p >>= f) := by
  intro inside c value after h
  rw [bind_apply] at h
  split at h
  · rename_i middle hm
    exact (hp _ _ _ _ hm).trans (hf _ _ _ _ _ h)
  · contradiction
  · contradiction

theorem advances_orElse {p q : Parse α} (hp : Advances p) (hq : Advances q) :
    Advances (orElse p q) := by
  intro inside c value after h
  unfold orElse at h
  split at h
  · exact hq _ _ _ _ h
  · exact hp _ _ _ _ h

theorem advances_many {p : Parse α} (hp : Advances p) : Advances (many p) := by
  intro inside c
  fun_induction many p inside c with
  | case1 => intro value after h; cases h; exact Cursor.Reaches.refl _
  | case2 => intro value after h; contradiction
  | case3 c value after hm _ values last _ ih =>
    intro value' after' h
    cases h
    exact (hp _ _ _ _ hm).trans (ih _ _ ‹_›)
  | case4 c value after hm =>
    intro value' after' h
    cases h
    exact hp _ _ _ _ hm
  | case5 => intro value after h; contradiction
  | case6 c value after hm =>
    intro value' after' h
    cases h
    exact hp _ _ _ _ hm

theorem advances_read {reader : Reader α}
    (h : ∀ c value after, reader c = some (value, after) → Cursor.Reaches c after) :
    Advances (read reader) := by
  intro inside c value after hr
  unfold read at hr
  split at hr
  · rename_i hm
    cases hr
    exact h _ _ _ hm
  · contradiction

theorem advances_pass {token : Cursor → Option Cursor}
    (h : ∀ c after, token c = some after → Cursor.Reaches c after) : Advances (pass token) := by
  intro inside c value after hr
  unfold pass at hr
  split at hr
  · rename_i hm
    cases hr
    exact h _ _ hm
  · contradiction

theorem advances_mark : Advances mark := by
  intro inside c value after h
  cases h
  exact Cursor.reaches_skipBlanks c

theorem advances_here : Advances here := by
  intro inside c value after h
  cases h
  exact Cursor.Reaches.refl c

theorem advances_fail (expected : Expected) : Advances (fail expected : Parse α) := by
  intro inside c value after h
  contradiction

theorem advances_advise {f : Failure → Failure} {p : Parse α} (hp : Advances p) :
    Advances (advise f p) := by
  intro inside c value after h
  unfold advise at h
  split at h
  · contradiction
  · exact hp _ _ _ _ h

theorem advances_require {expected : Expected} {p : Parse α} (hp : Advances p) :
    Advances (require expected p) :=
  advances_orElse hp (advances_fail expected)

end Parse

end VisualBasic
