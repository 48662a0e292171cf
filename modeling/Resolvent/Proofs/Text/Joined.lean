/-
# Files put together

The bytes of a text are decoded from the front, and each character knows its
end. So the text in the bytes of two files, one behind the other, is the text
of the first with that of the second behind it. Lines are told by their ends.
The only thing that can happen where two files meet is that one file ends and
the next one begins with a part of the same end of a line.
-/

import Mathlib.Data.List.Basic
import Resolvent.Text.Line
import Resolvent.Text.Utf8

namespace Resolvent.Text

/-! ### Decoding -/

/-- Nothing behind the bytes of a character is looked at. -/
theorem utf8Tail_append {following : Nat} {least greatest : UInt8} {code read : Nat}
    {bytes : List UInt8} {result : Nat × Nat}
    (h : utf8Tail following least greatest code read bytes = .ok result) (behind : List UInt8) :
    utf8Tail following least greatest code read (bytes ++ behind) = .ok result ∧
      result.2 ≤ read + bytes.length := by
  induction bytes generalizing following least greatest code read with
  | nil =>
      cases following with
      | zero =>
          obtain rfl := Except.ok.inj h
          exact ⟨by cases behind <;> rfl, Nat.le_refl _⟩
      | succ following => cases h
  | cons byte bytes ih =>
      cases following with
      | zero =>
          obtain rfl := Except.ok.inj h
          exact ⟨rfl, Nat.le_add_right _ _⟩
      | succ following =>
          rw [utf8Tail] at h
          split at h
          · next within =>
              obtain ⟨same, bound⟩ := ih h
              rw [List.cons_append, utf8Tail, if_pos within, List.length_cons]
              exact ⟨same, by omega⟩
          · cases h

/-- Bytes that can be decoded are decoded first, whatever comes behind. -/
theorem utf8Scan_append {found text : List Char} {position : Nat} {bytes : List UInt8}
    (h : utf8Scan found position bytes = .ok text) (behind : List UInt8) :
    utf8Scan found position (bytes ++ behind) =
      utf8Scan text.reverse (position + bytes.length) behind := by
  fun_induction utf8Scan found position bytes with
  | case1 found position =>
      obtain rfl := Except.ok.inj h
      rw [List.reverse_reverse]
      rfl
  | case2 => cases h
  | case3 found position byte rest lead known code read made ih =>
      obtain ⟨same, bound⟩ := utf8Tail_append made behind
      rw [List.cons_append, utf8Scan, known]
      dsimp only
      rw [same]
      dsimp only
      rw [List.drop_append_of_le_length (by omega), ih h, List.length_drop, List.length_cons]
      congr 1
      omega
  | case4 => cases h

/-- What has been decoded before and where have no influence on what is
decoded. -/
theorem utf8Scan_behind {found text : List Char} {position : Nat} {bytes : List UInt8}
    (h : utf8Scan found position bytes = .ok text) :
    ∃ more, text = found.reverse ++ more ∧
      ∀ found' position', utf8Scan found' position' bytes = .ok (found'.reverse ++ more) := by
  fun_induction utf8Scan found position bytes with
  | case1 found position =>
      obtain rfl := Except.ok.inj h
      refine ⟨[], (List.append_nil _).symm, fun found' position' => ?_⟩
      rw [utf8Scan, List.append_nil]
  | case2 => cases h
  | case3 found position byte rest lead known code read made ih =>
      obtain ⟨more, rfl, again⟩ := ih h
      refine ⟨Char.ofNat code :: more, by simp, fun found' position' => ?_⟩
      rw [utf8Scan, known]
      dsimp only
      rw [made]
      dsimp only
      rw [again, List.reverse_cons, List.append_assoc, List.singleton_append]
  | case4 => cases h

/-- Bytes that are a text each are a text together. -/
theorem decodeUtf8_append {bytes bytes' : List UInt8} {text text' : List Char}
    (h : decodeUtf8 bytes = .ok text) (h' : decodeUtf8 bytes' = .ok text') :
    decodeUtf8 (bytes ++ bytes') = .ok (text ++ text') := by
  obtain ⟨more, rfl, again⟩ := utf8Scan_behind h'
  rw [decodeUtf8, utf8Scan_append h, again, List.reverse_reverse]

theorem decodeUtf8_newline : decodeUtf8 [10] = .ok ['\n'] := by
  have lead : utf8Lead? 10 = some { bits := 10, following := 0 } := rfl
  rw [decodeUtf8, utf8Scan, lead]
  exact utf8Scan.eq_1 ['\n'] 1

/-! ### Lines -/

/-- A line feed between two texts ends a line, unless it completes the end of
one. In both cases a line ends between them. -/
theorem unifyLineEnds_append_newline (text text' : List Char) :
    ∃ between, unifyLineEnds (text ++ '\n' :: text') =
        unifyLineEnds text ++ between ++ unifyLineEnds text' ∧
      (between = ['\n'] ∨ between = [] ∧ (unifyLineEnds text).getLast? = some '\n') := by
  fun_induction unifyLineEnds text with
  | case1 => exact ⟨['\n'], by simp [unifyLineEnds], .inl rfl⟩
  | case2 rest ih =>
      obtain ⟨between, same, ends⟩ := ih
      refine ⟨between, ?_, ends.imp_right fun h => ⟨h.1, by simp [List.getLast?_cons, h.2]⟩⟩
      simp [unifyLineEnds, same]
  | case3 rest alone ih =>
      cases rest with
      | nil => exact ⟨[], by simp [unifyLineEnds], .inr ⟨rfl, rfl⟩⟩
      | cons d rest =>
          obtain ⟨between, same, ends⟩ := ih
          have alone' : ∀ more, d :: rest ++ '\n' :: text' = '\n' :: more → False := by
            intro more begins
            exact alone rest (by rw [(List.cons.inj begins).1])
          refine ⟨between, ?_, ends.imp_right fun h => ⟨h.1, by simp [List.getLast?_cons, h.2]⟩⟩
          rw [List.cons_append, unifyLineEnds.eq_3 _ alone', same]
          rfl
  | case4 c rest _ other ih =>
      obtain ⟨between, same, ends⟩ := ih
      refine ⟨between, ?_, ends.imp_right fun h => ⟨h.1, by simp [List.getLast?_cons, h.2]⟩⟩
      rw [List.cons_append, unifyLineEnds.eq_4 _ _ (fun _ same _ => other same) other, same]
      rfl

end Resolvent.Text
