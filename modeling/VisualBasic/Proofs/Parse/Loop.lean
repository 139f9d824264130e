import VisualBasic.Proofs.Parse.Runs

/-!
# Turns of a parser

A loop takes turns until one of them is the last. The repetitions of the grammar are such loops:
what `many` collects, bounds with commas between them, members on lines of their own, branches and
cases.
-/

set_option autoImplicit false

namespace VisualBasic

namespace Parse

variable {α β σ : Type}

/-- Takes turns until one of them is the last, or stays where it started. -/
def loop (turn : σ → Parse (ForInStep σ)) (state : σ) : Parse σ := fun inside c =>
  match turn state inside c with
  | .matched (.done last) d => .matched last d
  | .matched (.yield next) d =>
    if d.rest.length < c.rest.length then loop turn next inside d else .matched next d
  | .unmatched => .unmatched
  | .failed failure => .failed failure
termination_by _ c => c.rest.length

/-- What a turn comes to, and the turns after it. -/
def afterTurn (rest : σ → Parse σ) : ForInStep σ → Parse σ
  | .done last => pure last
  | .yield next => rest next

/-- Each turn but the last moves on. -/
def TurnsAhead (turn : σ → Parse (ForInStep σ)) : Prop :=
  ∀ state inside c next d, turn state inside c = .matched (.yield next) d →
    d.rest.length < c.rest.length

/-- What unrolls turn by turn is the loop. -/
theorem loop_eq {turn : σ → Parse (ForInStep σ)} {p : σ → Parse σ} (hahead : TurnsAhead turn)
    (h : ∀ state, p state = turn state >>= afterTurn p) (state : σ) :
    loop turn state = p state := by
  funext inside c
  induction hn : c.rest.length using Nat.strongRecOn generalizing state c with
  | _ n ih =>
    rw [loop, h, bind_apply]
    cases hturn : turn state inside c with
    | unmatched => rfl
    | failed failure => rfl
    | matched step d =>
      cases step with
      | done last => rfl
      | yield next =>
        have hlt := hahead _ _ _ _ _ hturn
        dsimp only
        rw [if_pos hlt]
        exact ih _ (by omega) _ _ rfl

theorem many_of_unmatched {p : Parse α} {inside : List Construct} {c : Cursor}
    (h : p inside c = .unmatched) : many p inside c = .matched [] c := by
  rw [many, h]

theorem many_of_failed {p : Parse α} {inside : List Construct} {c : Cursor} {failure : Failure}
    (h : p inside c = .failed failure) : many p inside c = .failed failure := by
  rw [many, h]

theorem opt_apply (p : Parse α) (inside : List Construct) (c : Cursor) :
    opt p inside c = match p inside c with
      | .matched value d => .matched (some value) d
      | .unmatched => .matched none c
      | .failed failure => .failed failure := by
  simp only [opt, orElse, Parse.bind]
  cases p inside c <;> rfl

theorem flag_pass_apply (token : Cursor → Option Cursor) (inside : List Construct) (c : Cursor) :
    flag (pass token) inside c = .matched (token c).isSome ((token c).getD c) := by
  simp only [flag, orElse, Parse.bind, pass]
  cases token c <;> rfl

/-- A choice that a token decides. -/
theorem orElse_pass {p q : Parse α} (token : Cursor → Option Cursor) (hp : Resolves p) :
    orElse (pass token *> p) q = flag (pass token) >>= fun isMet => if isMet then p else q := by
  funext inside c
  rw [bind_apply, flag_pass_apply, orElse, seqRight_eq_bind, bind_apply, pass]
  cases token c with
  | none => rfl
  | some d =>
    dsimp only [Option.isSome_some, Option.getD_some]
    rw [if_pos rfl]
    cases hm : p inside d with
    | matched value e => rfl
    | unmatched => exact absurd hm (hp inside d)
    | failed failure => rfl

/-- A part that may be missing, of which only the start may be. -/
theorem opt_bind (p : Parse α) {f : α → Parse β} (hf : ∀ value, Resolves (f value)) :
    opt (p >>= f) = opt p >>= fun found => found.elim (pure none)
      fun value => some <$> f value := by
  funext inside c
  rw [opt_apply, bind_apply, bind_apply, opt_apply]
  cases p inside c with
  | unmatched => rfl
  | failed failure => rfl
  | matched value d =>
    dsimp only [Option.elim_some]
    rw [← bind_pure_comp, bind_apply]
    cases hrest : f value inside d with
    | matched result e => rfl
    | unmatched => exact absurd hrest (hf value inside d)
    | failed failure => rfl

/-- A repetition gives the first part, if there is one, and repeats after it. -/
theorem many_eq {p : Parse α} (hp : Moves p Cursor.Ahead) :
    many p = opt p >>= fun found =>
      found.elim (pure []) fun value => (fun rest => value :: rest) <$> many p := by
  funext inside c
  rw [bind_apply, opt_apply]
  cases hm : p inside c with
  | unmatched => exact many_of_unmatched hm
  | failed failure => exact many_of_failed hm
  | matched value d =>
    rw [many_eq_of_matched hp hm, bind_pure_comp]
    rfl

theorem many_bind {p : Parse α} (hp : Moves p Cursor.Ahead) (f : List α → Parse β) :
    (many p >>= f) = opt p >>= fun found =>
      found.elim (f []) fun value => many p >>= fun rest => f (value :: rest) := by
  conv => lhs; rw [many_eq hp, bind_assoc]
  refine bind_congr fun found => ?_
  cases found with
  | none => rw [Option.elim_none, Option.elim_none, pure_bind]
  | some value => rw [Option.elim_some, Option.elim_some, bind_map_left]

/-- One more part, if there is one. -/
def collectTurn (part : Parse (Option α)) (before : List α) : Parse (ForInStep (List α)) :=
  part >>= fun found => match found with
    | some value => pure (.yield (before ++ [value]))
    | none => pure (.done before)

/-- A repetition is a loop that collects what its parser gives. -/
theorem loop_collectTurn (p : Parse α) (before : List α) :
    loop (collectTurn (opt p)) before = (before ++ ·) <$> many p := by
  funext inside c
  rw [← bind_pure_comp, bind_apply]
  induction hn : c.rest.length using Nat.strongRecOn generalizing before c with
  | _ n ih =>
    rw [loop, collectTurn, bind_apply, opt_apply, many]
    cases p inside c with
    | unmatched => exact congrArg (Outcome.matched · c) (List.append_nil before).symm
    | failed failure => rfl
    | matched value d =>
      dsimp only [pure_apply]
      split
      · rw [ih _ (by omega) _ _ rfl]
        cases hrest : many p inside d with
        | matched values e => simp [pure_apply]
        | unmatched => exact absurd hrest (many_ne_unmatched p inside d)
        | failed failure => rfl
      · rfl

end Parse

end VisualBasic
