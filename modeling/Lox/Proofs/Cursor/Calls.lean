import Lox.Cursor
import Lox.Proofs.Stateful

/-!
# Calls on a cursor

A cursor can be asked for anything in any order.  Whatever it has been asked for, the mark does not
stand behind the cursor nor the cursor behind the end of the row.  A call moves the cursor by one
item if it consumes one, and not at all otherwise, so that the items between the mark and the cursor
are those that have been consumed since the mark was set.
-/

namespace Lox.Cursor

open Stateful

variable {α : Type}

inductive Call (α : Type) where
  | hasNext (ahead : Int)
  | setMark
  | peek (ahead : Int)
  | require (ahead : Int)
  | previous
  | sees (expected : List (Option α))
  | advance
  | advanceIf (expected : List (Option α))
  | passed

inductive Reply (α : Type) where
  | done
  | truth (value : Bool)
  | item (value : Option α)
  | row (values : List (Option α))
  | fault (cause : CursorFault)

/-- What a computation answers from a place, and where it leaves the cursor, also after a fault. -/
def answer {β : Type} (walk : EStateM CursorFault (Cursor α) β) (reply : β → Reply α)
    (c : Cursor α) : Reply α × Cursor α :=
  match walk c with
  | .ok b c => (reply b, c)
  | .error fault c => (.fault fault, c)

def respond [BEq α] (c : Cursor α) : Call α → Reply α × Cursor α
  | .hasNext ahead => (.truth (c.hasNext ahead), c)
  | .setMark => (.done, c.setMark)
  | .peek ahead => (.item (c.peek ahead), c)
  | .require ahead => answer (require ahead) (.item ∘ some) c
  | .previous => answer previous (.item ∘ some) c
  | .sees expected => (.truth (c.sees expected), c)
  | .advance => answer advance (.item ∘ some) c
  | .advanceIf expected => answer (advanceIf expected) .truth c
  | .passed => (.row c.passed, c)

/-- Whether an answer means that an item has been consumed: one was asked for and is there, or one
was expected and has been seen. -/
def Call.consumes : Call α → Reply α → Bool
  | .advance, .item _ => true
  | .advanceIf _, .truth seen => seen
  | _, _ => false

def consumed [BEq α] (c : Cursor α) (call : Call α) : List α :=
  if call.consumes (c.respond call).1 then (c.peek 0).toList else []

/-- A cursor, and what has been consumed since its mark was set. -/
structure Record (α : Type) where
  cursor : Cursor α
  taken : List α

namespace Record

variable [BEq α]

def start (items : List (Option α)) : Record α :=
  ⟨ofList items, []⟩

def call (r : Record α) (call : Call α) : Record α where
  cursor := (r.cursor.respond call).2
  taken := match call with
    | .setMark => []
    | _ => r.taken ++ r.cursor.consumed call

def calls (r : Record α) (calls : List (Call α)) : Record α :=
  calls.foldl call r

end Record

/-! ## One call -/

theorem peek_zero (c : Cursor α) : c.peek 0 = (c.items[c.position]?).join := by
  unfold peek
  rw [Int.add_zero]

theorem getElem?_of_peek {c : Cursor α} {a : α} (h : c.peek 0 = some a) :
    c.items.toList[c.position]? = some (some a) := by
  rw [peek_zero, Option.join_eq_some_iff] at h
  rw [Array.getElem?_toList, h]

/-- Requiring an item only looks at it. -/
theorem require_eq (ahead : Int) (c : Cursor α) :
    require ahead c =
      match c.peek ahead with
      | some a => .ok a c
      | none => .error .missing c := by
  rw [require, bind_of_ok (get_eq c)]
  cases c.peek ahead <;> rfl

/-- Advancing passes the item that is there, and otherwise fails where it is. -/
theorem advance_eq (c : Cursor α) :
    advance c =
      match c.peek 0 with
      | some a => .ok a { c with position := c.position + 1 }
      | none => .error .exhausted c := by
  rw [advance, bind_of_ok (get_eq c)]
  cases c.peek 0 <;> rfl

/-- Advancing on a condition comes to advancing if the condition holds. -/
theorem advanceIf_eq [BEq α] (expected : List (Option α)) (c : Cursor α) :
    advanceIf expected c =
      if c.sees expected then ((fun _ ↦ true) <$> advance) c else .ok false c := by
  rw [advanceIf, bind_of_ok (get_eq c)]
  cases c.sees expected <;> rfl

section

variable [BEq α] (c : Cursor α)

/-- A fault, or an answer that changes nothing. -/
structure Stays (call : Call α) : Prop where
  eq : (c.respond call).2 = c
  consumes_eq : call.consumes (c.respond call).1 = false

structure Moves (call : Call α) (a : α) : Prop where
  next : c.peek 0 = some a
  eq : (c.respond call).2 = { c with position := c.position + 1 }
  consumes_eq : call.consumes (c.respond call).1 = true
  sound : ∀ fault, (c.respond call).1 ≠ .fault fault

theorem respond_advance {c : Cursor α} {a : α} (h : c.peek 0 = some a) :
    c.respond .advance = (.item (some a), { c with position := c.position + 1 }) := by
  simp only [respond, answer, advance_eq, h, Function.comp_apply]

/-- Advancing passes the next item, or fails and changes nothing. -/
theorem advance_cases : c.Stays .advance ∨ ∃ a, c.Moves .advance a := by
  cases h : c.peek 0 with
  | none =>
    have hrespond : c.respond .advance = (.fault .exhausted, c) := by
      simp only [respond, answer, advance_eq, h]
    exact .inl ⟨by rw [hrespond], by rw [hrespond]; rfl⟩
  | some a =>
    have hrespond := respond_advance h
    exact .inr ⟨a, h, by rw [hrespond], by rw [hrespond]; rfl, by rw [hrespond]; nofun⟩

/-- Advancing on a condition passes the next item, or answers that it was not seen. -/
theorem advanceIf_cases (expected : List (Option α)) :
    c.Stays (.advanceIf expected) ∨ ∃ a, c.Moves (.advanceIf expected) a := by
  cases hsees : c.sees expected with
  | false =>
    have hrespond : c.respond (.advanceIf expected) = (.truth false, c) := by
      simp [respond, answer, advanceIf_eq, hsees]
    exact .inl ⟨by rw [hrespond], by rw [hrespond]; rfl⟩
  | true =>
    cases h : c.peek 0 with
    | none =>
      -- A missing item can be expected, and seen, but not passed.
      have hadvance : advance c = .error .exhausted c := by rw [advance_eq, h]
      have hrespond : c.respond (.advanceIf expected) = (.fault .exhausted, c) := by
        simp only [respond, answer, advanceIf_eq, hsees, if_true, map_of_error hadvance]
      exact .inl ⟨by rw [hrespond], by rw [hrespond]; rfl⟩
    | some a =>
      have hadvance : advance c = .ok a { c with position := c.position + 1 } := by
        rw [advance_eq, h]
      have hrespond : c.respond (.advanceIf expected) =
          (.truth true, { c with position := c.position + 1 }) := by
        simp only [respond, answer, advanceIf_eq, hsees, if_true, map_of_ok hadvance]
      exact .inr ⟨a, h, by rw [hrespond], by rw [hrespond]; rfl, by rw [hrespond]; nofun⟩

/-- Looking for an item does not move the cursor, whether it is there or not. -/
theorem require_stays {call : Call α} (ahead : Int)
    (h : c.respond call = answer (require ahead) (.item ∘ some) c)
    (hcall : ∀ reply, call.consumes reply = false) : c.Stays call := by
  refine ⟨?_, hcall _⟩
  rw [h, answer, require_eq]
  cases c.peek ahead <;> rfl

/-- All that a call can do. -/
theorem respond_cases (call : Call α) :
    call = .setMark ∨ c.Stays call ∨ ∃ a, c.Moves call a := by
  cases call with
  | setMark => exact .inl rfl
  | advance => exact .inr c.advance_cases
  | advanceIf expected => exact .inr (c.advanceIf_cases expected)
  | require ahead => exact .inr (.inl (c.require_stays ahead rfl fun _ ↦ rfl))
  | previous => exact .inr (.inl (c.require_stays (-1) rfl fun _ ↦ rfl))
  | hasNext ahead => exact .inr (.inl ⟨rfl, rfl⟩)
  | peek ahead => exact .inr (.inl ⟨rfl, rfl⟩)
  | sees expected => exact .inr (.inl ⟨rfl, rfl⟩)
  | passed => exact .inr (.inl ⟨rfl, rfl⟩)

end

section

variable [BEq α] {c : Cursor α} {call : Call α}

theorem Stays.consumed_eq (h : c.Stays call) : c.consumed call = [] := by
  simp [consumed, h.consumes_eq]

theorem Moves.consumed_eq {a : α} (h : c.Moves call a) : c.consumed call = [a] := by
  simp [consumed, h.consumes_eq, h.next]

/-- A call moves the cursor by one item if it consumes one. -/
theorem position_respond (c : Cursor α) (call : Call α) :
    (c.respond call).2.position =
      c.position + if call.consumes (c.respond call).1 then 1 else 0 := by
  rcases c.respond_cases call with rfl | hstays | ⟨a, hmoves⟩
  · rfl
  · simp [hstays.eq, hstays.consumes_eq]
  · simp [hmoves.eq, hmoves.consumes_eq]

/-- A fault changes nothing. -/
theorem respond_of_fault {fault : CursorFault} (h : (c.respond call).1 = .fault fault) :
    (c.respond call).2 = c := by
  rcases c.respond_cases call with rfl | hstays | ⟨a, hmoves⟩
  · cases h
  · exact hstays.eq
  · exact absurd h (hmoves.sound fault)

/-- Only a call that passes an item consumes one. -/
theorem moves_of_consumes (h : call.consumes (c.respond call).1 = true) :
    ∃ a, c.Moves call a := by
  rcases c.respond_cases call with rfl | hstays | hmoves
  · cases h
  · rw [hstays.consumes_eq] at h
    cases h
  · exact hmoves

end

/-! ## Any series of calls -/

/-- The places are in order, and what lies between them is what has been consumed. -/
structure Record.Sound (items : List (Option α)) (r : Record α) : Prop where
  items_eq : r.cursor.items = items.toArray
  mark_le : r.cursor.mark ≤ r.cursor.position
  position_le : r.cursor.position ≤ items.length
  passed_eq : r.cursor.passed = r.taken.map some

namespace Record

variable {items : List (Option α)} {r : Record α}

theorem start_sound (items : List (Option α)) : (start items).Sound items where
  items_eq := rfl
  mark_le := Nat.le_refl 0
  position_le := Nat.zero_le _
  passed_eq := rfl

/-- The item that is passed is the last of those between the mark and the cursor. -/
theorem Sound.moved (h : r.Sound items) {a : α} (hnext : r.cursor.peek 0 = some a) :
    Sound items ⟨{ r.cursor with position := r.cursor.position + 1 }, r.taken ++ [a]⟩ := by
  have hitem := getElem?_of_peek hnext
  have hlt : r.cursor.position < r.cursor.items.toList.length :=
    (List.getElem?_eq_some_iff.mp hitem).1
  have hmark : r.cursor.mark ≤ (r.cursor.items.toList.take r.cursor.position).length := by
    rw [List.length_take_of_le (Nat.le_of_lt hlt)]
    exact h.mark_le
  refine ⟨h.items_eq, h.mark_le.step, ?_, ?_⟩
  · rwa [h.items_eq] at hlt
  · calc (r.cursor.items.toList.take (r.cursor.position + 1)).drop r.cursor.mark
        = (r.cursor.items.toList.take r.cursor.position ++ [some a]).drop r.cursor.mark := by
          rw [List.take_add_one, hitem, Option.toList_some]
      _ = r.cursor.passed ++ [some a] := List.drop_append_of_le_length hmark
      _ = (r.taken ++ [a]).map some := by rw [h.passed_eq, List.map_append, List.map_singleton]

variable [BEq α]

/-- No other call moves the mark, so that what was taken since is only added to. -/
theorem call_eq (r : Record α) {call : Call α} (h : call ≠ .setMark) :
    r.call call = ⟨(r.cursor.respond call).2, r.taken ++ r.cursor.consumed call⟩ := by
  cases call <;> first | rfl | exact absurd rfl h

theorem Sound.setMark (h : r.Sound items) : (r.call .setMark).Sound items where
  items_eq := h.items_eq
  mark_le := Nat.le_refl _
  position_le := h.position_le
  passed_eq := by
    change (r.cursor.items.toList.take r.cursor.position).drop r.cursor.position = []
    exact List.drop_eq_nil_of_le (List.length_take_le _ _)

/-- No call takes a record out of order. -/
theorem Sound.call (h : r.Sound items) (call : Call α) : (r.call call).Sound items := by
  by_cases hcall : call = .setMark
  · rw [hcall]
    exact h.setMark
  · rw [call_eq r hcall]
    rcases r.cursor.respond_cases call with hmark | hstays | ⟨a, hmoves⟩
    · exact absurd hmark hcall
    · rw [hstays.eq, hstays.consumed_eq, List.append_nil]
      exact h
    · rw [hmoves.eq, hmoves.consumed_eq]
      exact h.moved hmoves.next

/-- Neither does any sequence of calls. -/
theorem Sound.calls (h : r.Sound items) (calls : List (Call α)) : (r.calls calls).Sound items := by
  induction calls generalizing r with
  | nil => exact h
  | cons call calls ih => exact ih (h.call call)

end Record

/-- However a cursor has been used, the mark does not stand behind it and it does not stand behind
the end of the row, and between the mark and the cursor is what has been consumed since the mark was
set, in order.  Whatever it is asked for next, it moves by one item if it consumes one, which is the
next in the row, and not at all otherwise, and a fault moves neither the cursor nor the mark. -/
theorem places_stay_in_order [BEq α] (items : List (Option α)) (calls : List (Call α)) :
    let r := (Record.start items).calls calls
    (0 ≤ r.cursor.mark ∧ r.cursor.mark ≤ r.cursor.position ∧ r.cursor.position ≤ items.length) ∧
    (r.cursor.respond .passed).1 = .row (r.taken.map some) ∧
    ∀ call,
      let reply := (r.cursor.respond call).1
      let next := (r.cursor.respond call).2
      next.position = r.cursor.position + (if call.consumes reply then 1 else 0) ∧
      (call.consumes reply = true → ∃ a, items[r.cursor.position]? = some (some a) ∧
        r.cursor.consumed call = [a] ∧ (call = .advance → reply = .item (some a))) ∧
      ∀ fault, reply = .fault fault →
        next.position = r.cursor.position ∧ next.mark = r.cursor.mark := by
  intro r
  have hsound : r.Sound items := (Record.start_sound items).calls calls
  refine ⟨⟨Nat.zero_le _, hsound.mark_le, hsound.position_le⟩, ?_, fun call ↦ ?_⟩
  · exact congrArg Reply.row hsound.passed_eq
  intro reply next
  refine ⟨position_respond r.cursor call, fun hconsumes ↦ ?_, fun fault hfault ↦ ?_⟩
  · obtain ⟨a, hmoves⟩ := moves_of_consumes hconsumes
    have hitem := getElem?_of_peek hmoves.next
    rw [hsound.items_eq] at hitem
    refine ⟨a, hitem, hmoves.consumed_eq, ?_⟩
    rintro rfl
    exact congrArg Prod.fst (respond_advance hmoves.next)
  · have hnext : next = r.cursor := respond_of_fault hfault
    rw [hnext]
    exact ⟨rfl, rfl⟩

/-! ## Rows

A parser that only goes forward over items none of which is missing needs no more than the items ahead
of the cursor. -/

def ahead (c : Cursor α) : List (Option α) :=
  c.items.toList.drop c.position

/-- Two computations end alike, one from a place in a row and one from the items ahead of it. -/
def Follows {β : Type} (walk : EStateM CursorFault (Cursor α) β)
    (reading : EStateM CursorFault (List α) β) : Prop :=
  ∀ (c : Cursor α) (row : List α), c.ahead = row.map some →
    match walk c, reading row with
    | .ok b c, .ok b' row => b = b' ∧ c.ahead = row.map some
    | .error fault c, .error fault' row => fault = fault' ∧ c.ahead = row.map some
    | _, _ => False

/-- The item ahead of the cursor is the first of the row that is left. -/
theorem peek_of_ahead {c : Cursor α} {row : List α} (h : c.ahead = row.map some) :
    c.peek 0 = row.head? := by
  have hitem : c.items.toList[c.position]? = (row.map some).head? := by
    rw [← h, ahead, List.head?_drop]
  rw [peek_zero, ← Array.getElem?_toList, hitem]
  cases row <;> rfl

/-- Looking at the next item of a row is what the cursor does at its place. -/
theorem require_follows : Follows (require 0) (Row.require : EStateM CursorFault (List α) α) := by
  intro c row h
  have hpeek := peek_of_ahead h
  cases row with
  | nil =>
    rw [require_eq, hpeek]
    exact ⟨rfl, h⟩
  | cons a rest =>
    rw [require_eq, hpeek]
    exact ⟨rfl, h⟩

/-- Passing the next item of a row is what the cursor does at its place. -/
theorem advance_follows : Follows advance (Row.advance : EStateM CursorFault (List α) α) := by
  intro c row h
  have hpeek := peek_of_ahead h
  cases row with
  | nil =>
    rw [advance_eq, hpeek]
    exact ⟨rfl, h⟩
  | cons a rest =>
    rw [advance_eq, hpeek]
    refine ⟨rfl, ?_⟩
    change c.items.toList.drop (c.position + 1) = rest.map some
    rw [← List.tail_drop, ← ahead, h, List.map_cons, List.tail_cons]

end Lox.Cursor
