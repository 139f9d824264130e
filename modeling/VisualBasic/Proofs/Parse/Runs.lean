import VisualBasic.Proofs.Parse.Commitment
import VisualBasic.Proofs.Parse.Ensures

/-!
# Matches one after the other

`Runs p inside c values d` says that matches of `p`, each from where the one before it ends, lead
from `c` to `d` and give the values. A repetition that matches is such a run. Where every match
passes over some text, the run is as long as matches go on: the guard in `many` never stops it.
-/

set_option autoImplicit false

namespace VisualBasic

namespace Parse

variable {α : Type}

inductive Runs (p : Parse α) (inside : List Construct) : Cursor → List α → Cursor → Prop where
  | nil (c : Cursor) : Runs p inside c [] c
  | cons {c d e : Cursor} {value : α} {values : List α} (first : p inside c = .matched value d)
    (rest : Runs p inside d values e) : Runs p inside c (value :: values) e

variable {p q : Parse α} {inside : List Construct} {c d : Cursor} {values : List α}

theorem runs_of_many (h : many p inside c = .matched values d) : Runs p inside c values d := by
  fun_induction many p inside c generalizing values d with
  | case1 c =>
    cases h
    exact .nil c
  | case2 => contradiction
  | case3 c value middle hfirst _ rest last hrest ih =>
    cases h
    exact .cons hfirst (ih hrest)
  | case4 c value middle hfirst =>
    cases h
    exact .cons hfirst (.nil middle)
  | case5 => contradiction
  | case6 c value middle hfirst =>
    cases h
    exact .cons hfirst (.nil middle)

/-- A parser that stands in for another runs as the other does. -/
theorem Runs.mono (h : Runs p inside c values d) (hpq : Implies p q) :
    Runs q inside c values d := by
  induction h with
  | nil c => exact .nil c
  | cons first _ ih => exact .cons (hpq _ _ _ _ first) ih

/-- Every value of a run is matched somewhere. -/
theorem Runs.exists_of_mem (hp : Advances p) (h : Runs p inside c values d) {value : α}
    (hv : value ∈ values) : ∃ e after, Cursor.Reaches c e ∧ p inside e = .matched value after := by
  induction h with
  | nil => contradiction
  | cons first _ ih =>
    rcases List.mem_cons.mp hv with rfl | hv
    · exact ⟨_, _, Cursor.Reaches.refl _, first⟩
    · obtain ⟨e, after, hreach, hm⟩ := ih hv
      exact ⟨e, after, (hp _ _ _ _ first).trans hreach, hm⟩

theorem Runs.length_le (hp : Moves p Cursor.Ahead) (h : Runs p inside c values d) :
    values.length + d.rest.length ≤ c.rest.length := by
  induction h with
  | nil c => simp
  | cons first _ ih =>
    have hlt := (hp _ _ _ _ first).2
    rw [List.length_cons]
    omega

/-- From every place, after finitely many matches in a row, the parser does not match or fails, and
the repetition comes to what those matches give or to that failure. -/
def Finishes (p : Parse α) : Prop :=
  ∀ inside c, ∃ values d, Runs p inside c values d ∧
    values.length + d.rest.length ≤ c.rest.length ∧
    ((p inside d = .unmatched ∧ many p inside c = .matched values d) ∨
      ∃ failure, p inside d = .failed failure ∧ many p inside c = .failed failure)

theorem many_eq_of_matched {value : α} (hp : Moves p Cursor.Ahead)
    (h : p inside c = .matched value d) :
    many p inside c = (many p >>= fun rest => pure (value :: rest)) inside d := by
  rw [many, h, bind_apply]
  dsimp only
  rw [if_pos (hp _ _ _ _ h).2]
  cases hrest : many p inside d with
  | matched rest last => rfl
  | unmatched => exact absurd hrest (many_ne_unmatched p inside d)
  | failed failure => rfl

/-- A run that comes to where the parser does not match is the whole repetition. -/
theorem Runs.many_eq (h : Runs p inside c values d) (hp : Moves p Cursor.Ahead)
    (hd : p inside d = .unmatched) : many p inside c = .matched values d := by
  induction h with
  | nil c => rw [many, hd]
  | cons first _ ih =>
    rw [many_eq_of_matched hp first, bind_apply, ih hd]
    rfl

/-- Each part of a run starts where the parts before it lead. -/
theorem Runs.exists_take (h : Runs p inside c values d) {n : Nat} (hn : n < values.length) :
    ∃ e value after, Runs p inside c (values.take n) e ∧ p inside e = .matched value after := by
  induction h generalizing n with
  | nil => contradiction
  | @cons c d e value values first _ ih =>
    cases n with
    | zero => exact ⟨c, value, d, .nil c, first⟩
    | succ n =>
      obtain ⟨place, next, after, hbefore, hnext⟩ := ih (Nat.lt_of_succ_lt_succ hn)
      exact ⟨place, next, after, .cons first hbefore, hnext⟩

theorem finishes_of_moves (hp : Moves p Cursor.Ahead) : Finishes p := by
  intro inside c
  induction hn : c.rest.length using Nat.strongRecOn generalizing c with
  | _ n ih =>
    cases hm : p inside c with
    | unmatched =>
      have hmany : many p inside c = .matched [] c := by rw [many, hm]
      exact ⟨[], c, .nil c, by simp [hn], .inl ⟨hm, hmany⟩⟩
    | failed failure =>
      have hmany : many p inside c = .failed failure := by rw [many, hm]
      exact ⟨[], c, .nil c, by simp [hn], .inr ⟨failure, hm, hmany⟩⟩
    | matched value middle =>
      have hlt := (hp _ _ _ _ hm).2
      obtain ⟨values, d, hruns, _, hend⟩ := ih middle.rest.length (by omega) middle rfl
      have hall := Runs.cons hm hruns
      refine ⟨value :: values, d, hall, by have := hall.length_le hp; omega, ?_⟩
      rw [many_eq_of_matched hp hm, bind_apply]
      rcases hend with ⟨hstop, hmany⟩ | ⟨failure, hstop, hmany⟩
      · exact .inl ⟨hstop, by rw [hmany]; rfl⟩
      · exact .inr ⟨failure, hstop, by rw [hmany]⟩

end Parse

end VisualBasic
