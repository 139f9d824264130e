import VisualBasic.Text.Span

/-!
# Cursors

A cursor is a place in a source text: the byte offset, whether the character before it is a blank,
and the characters after it. Cursors move forward by whole characters only; `skip` is the one
motion, and everything that reads text yields a cursor that `skip` reaches.
-/

set_option autoImplicit false

namespace VisualBasic

structure Cursor where
  offset : Nat
  afterBlank : Bool
  rest : List Char
  deriving DecidableEq, Repr

namespace Cursor

def start (source : List Char) : Cursor := ⟨0, false, source⟩

/-- Past the next character, where there is one. -/
def next (c : Cursor) : Cursor :=
  match c.rest with
  | [] => c
  | char :: rest => ⟨c.offset + char.utf8Size, isBlank char, rest⟩

/-- Past the next `n` characters. -/
def skip : Nat → Cursor → Cursor
  | 0, c => c
  | n + 1, c => skip n c.next

/-- The place of a byte offset in a text. -/
def ofOffset (source : List Char) (offset : Nat) : Cursor :=
  skip (splitBytes offset source).1.length (start source)

def isAtEnd (c : Cursor) : Bool := c.rest.isEmpty

def spanTo (c d : Cursor) : Span := ⟨c.offset, d.offset⟩

/-- The text from one place to a later one. -/
def textTo (c d : Cursor) : String :=
  String.ofList (c.rest.take (c.rest.length - d.rest.length))

@[simp] theorem skip_zero (c : Cursor) : skip 0 c = c := rfl

@[simp] theorem skip_succ (n : Nat) (c : Cursor) : skip (n + 1) c = skip n c.next := rfl

theorem skip_add (m n : Nat) (c : Cursor) : skip (m + n) c = skip n (skip m c) := by
  induction m generalizing c with
  | zero => simp
  | succ m ih => rw [Nat.succ_add]; exact ih c.next

@[simp] theorem rest_next (c : Cursor) : c.next.rest = c.rest.drop 1 := by
  unfold next
  split <;> simp_all

@[simp] theorem rest_skip (n : Nat) (c : Cursor) : (skip n c).rest = c.rest.drop n := by
  induction n generalizing c with
  | zero => simp
  | succ n ih => rw [skip_succ, ih, rest_next, List.drop_drop, Nat.add_comm]

theorem offset_next (c : Cursor) : c.next.offset = c.offset + byteLength (c.rest.take 1) := by
  unfold next
  split <;> simp_all

/-- The offset grows by the bytes of the text passed over. -/
theorem offset_skip (n : Nat) (c : Cursor) :
    (skip n c).offset = c.offset + byteLength (c.rest.take n) := by
  induction n generalizing c with
  | zero => simp
  | succ n ih =>
    rw [skip_succ, ih, offset_next, rest_next, Nat.add_assoc, ← byteLength_append]
    congr 2
    cases c.rest <;> simp

/-- The cursor before a text lies at the offset just before it. -/
theorem offset_add_rest_skip (n : Nat) (c : Cursor) :
    (skip n c).offset + byteLength (skip n c).rest = c.offset + byteLength c.rest := by
  rw [offset_skip, rest_skip, Nat.add_assoc, ← byteLength_append, List.take_append_drop]

/-- One place is reached from another by moving forward. -/
def Reaches (c d : Cursor) : Prop := ∃ n, d = skip n c

theorem Reaches.refl (c : Cursor) : Reaches c c := ⟨0, rfl⟩

theorem Reaches.trans {c d e : Cursor} (h : Reaches c d) (h' : Reaches d e) : Reaches c e := by
  obtain ⟨m, rfl⟩ := h
  obtain ⟨n, rfl⟩ := h'
  exact ⟨m + n, (skip_add m n c).symm⟩

theorem reaches_skip (n : Nat) (c : Cursor) : Reaches c (skip n c) := ⟨n, rfl⟩

theorem Reaches.length_le {c d : Cursor} (h : Reaches c d) : d.rest.length ≤ c.rest.length := by
  obtain ⟨n, rfl⟩ := h
  simp

theorem Reaches.offset_le {c d : Cursor} (h : Reaches c d) : c.offset ≤ d.offset := by
  obtain ⟨n, rfl⟩ := h
  rw [offset_skip]
  omega

/-! At the end of the text nothing moves. -/

theorem next_of_rest_eq_nil {c : Cursor} (h : c.rest = []) : c.next = c := by
  simp [next, h]

theorem skip_of_rest_eq_nil {c : Cursor} (h : c.rest = []) (n : Nat) : c.skip n = c := by
  induction n with
  | zero => rfl
  | succ n ih => rw [skip_succ, next_of_rest_eq_nil h, ih]

theorem eq_of_reaches_of_rest_eq_nil {c d : Cursor} (h : c.rest = []) (hr : Reaches c d) :
    d = c := by
  obtain ⟨n, rfl⟩ := hr
  exact skip_of_rest_eq_nil h n

end Cursor

end VisualBasic
