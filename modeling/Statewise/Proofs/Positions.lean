import Statewise.Json.Position
import Mathlib.Data.List.TakeWhile

/-!
# Positions of bytes

The position of a byte counts the newlines before it and the bytes since the last of them. Lines are made of characters,
but it makes no difference to count bytes instead: the byte that stands for a newline is part of no other character
(`newline_mem_utf8EncodeChar_iff`). The offset of the position of a byte is therefore the number of bytes before it
(`offset_inverts`), inside a character of several bytes, on an empty line and at the end of the text like anywhere else.
-/

namespace Statewise

namespace Position

/-! ## Bytes and newlines -/

/-- The byte that ends a line. -/
def newline : UInt8 := 10

/-- The number of bytes since the last newline. -/
def sinceNewline (bytes : List UInt8) : Nat := (bytes.reverse.takeWhile (· != newline)).length

/-- The first `o` bytes of a text. -/
def bytesBefore (text : String) (o : Nat) : List UInt8 := text.toByteArray.data.toList.take o

/-- The position is that of byte `o`, or that of the end of the text. -/
structure IsAt (p : Position) (text : String) (o : Nat) : Prop where
  within : o ≤ text.utf8ByteSize
  line : p.line.toNat = 1 + (bytesBefore text o).count newline
  column : p.column.toNat = 1 + sinceNewline (bytesBefore text o)

instance (p : Position) (text : String) (o : Nat) : Decidable (p.IsAt text o) :=
  decidable_of_iff
    (o ≤ text.utf8ByteSize ∧ p.line.toNat = 1 + (bytesBefore text o).count newline ∧
      p.column.toNat = 1 + sinceNewline (bytesBefore text o))
    ⟨fun h => ⟨h.1, h.2.1, h.2.2⟩, fun h => ⟨h.within, h.line, h.column⟩⟩

/-- Characters outside ASCII share no byte with those inside. -/
theorem le_of_mem_utf8EncodeChar {c : Char} (hc : 127 < c.val.toNat) {b : UInt8} (hb : b ∈ String.utf8EncodeChar c) :
    128 ≤ b.toNat := by
  simp only [String.utf8EncodeChar, Nat.not_le.mpr hc, if_false] at hb
  split at hb
  · simp only [List.mem_cons, List.not_mem_nil, or_false] at hb
    rcases hb with rfl | rfl <;> rw [UInt8.toNat_ofNat'] <;> omega
  · split at hb
    · simp only [List.mem_cons, List.not_mem_nil, or_false] at hb
      rcases hb with rfl | rfl | rfl <;> rw [UInt8.toNat_ofNat'] <;> omega
    · simp only [List.mem_cons, List.not_mem_nil, or_false] at hb
      rcases hb with rfl | rfl | rfl | rfl <;> rw [UInt8.toNat_ofNat'] <;> omega

theorem newline_mem_utf8EncodeChar_iff {c : Char} : newline ∈ String.utf8EncodeChar c ↔ c = '\n' := by
  constructor
  · intro hmem
    have hascii : c.val.toNat ≤ 127 := by
      refine Nat.le_of_not_lt fun hc => ?_
      exact absurd (le_of_mem_utf8EncodeChar hc hmem) (by decide)
    have hcode : newline.toNat = c.val.toNat := by
      simp only [String.utf8EncodeChar, hascii, if_true, List.mem_singleton] at hmem
      rw [hmem, UInt8.toNat_ofNat', Nat.mod_eq_of_lt (by omega)]
    exact Char.ext (UInt32.toNat_inj.mp hcode.symm)
  · rintro rfl
    decide

theorem toByteArray_eq_flatMap (text : String) :
    text.toByteArray.data.toList = text.toList.flatMap String.utf8EncodeChar := by
  rw [← String.utf8Encode_toList, List.utf8Encode, List.toList_data_toByteArray]

/-- Without a newline, all bytes are counted. -/
theorem sinceNewline_eq_length_iff {bytes : List UInt8} : sinceNewline bytes = bytes.length ↔ newline ∉ bytes := by
  have hreverse : bytes.reverse.length = bytes.length := List.length_reverse
  rw [sinceNewline, ← hreverse, ← List.mem_reverse]
  constructor
  · intro hlength hmem
    have hself := (List.takeWhile_prefix _).eq_of_length hlength
    exact absurd (List.takeWhile_eq_self_iff.mp hself newline hmem) (by simp)
  · intro hnot
    rw [List.takeWhile_eq_self_iff.mpr]
    intro b hb
    rw [bne_iff_ne]
    rintro rfl
    exact hnot hb

/-- What stands before the last newline does not matter. -/
theorem sinceNewline_append (earlier bytes : List UInt8) :
    sinceNewline (earlier ++ bytes) =
      if newline ∈ bytes then sinceNewline bytes else sinceNewline earlier + bytes.length := by
  have hall : (bytes.reverse.takeWhile (· != newline)).length = bytes.reverse.length ↔ newline ∉ bytes := by
    rw [List.length_reverse]
    exact sinceNewline_eq_length_iff
  unfold sinceNewline
  rw [List.reverse_append, List.takeWhile_append]
  by_cases h : newline ∈ bytes
  · rw [if_neg (fun hlength => hall.mp hlength h), if_pos h]
  · rw [if_pos (hall.mpr h), if_neg h, List.length_append, List.length_reverse, Nat.add_comm]

/-- A newline at the start changes nothing: the bytes behind it are counted, or those behind a later one. -/
theorem sinceNewline_newline_cons (bytes : List UInt8) : sinceNewline (newline :: bytes) = sinceNewline bytes := by
  have happend : sinceNewline ([newline] ++ bytes) = _ := sinceNewline_append [newline] bytes
  rw [show newline :: bytes = [newline] ++ bytes from rfl, happend]
  split
  · rfl
  · next h =>
    rw [sinceNewline_eq_length_iff.mpr h]
    exact Nat.zero_add _

theorem sinceNewline_le (bytes : List UInt8) : sinceNewline bytes ≤ bytes.length := by
  have := (List.takeWhile_prefix (l := bytes.reverse) (· != newline)).length_le
  rwa [List.length_reverse] at this

/-! ## Lines of characters -/

/-- The number of bytes in the first `k` lines. -/
def linesSize (k : Nat) (cs : List Char) : Nat := ((lineSizes cs).take k).foldl (· + ·) 0

theorem linesSize_newline (k : Nat) (cs : List Char) : linesSize (k + 1) ('\n' :: cs) = 1 + linesSize k cs := by
  simp only [linesSize, lineSizes, if_true, List.take_succ_cons, ← List.sum_eq_foldl_nat, List.sum_cons]

theorem linesSize_cons {c : Char} (h : c ≠ '\n') (k : Nat) (cs : List Char) :
    linesSize (k + 1) (c :: cs) = c.utf8Size + linesSize (k + 1) cs := by
  unfold linesSize
  rw [lineSizes, if_neg h, ← List.sum_eq_foldl_nat, ← List.sum_eq_foldl_nat]
  cases lineSizes cs with
  | nil => simp
  | cons n ns => simp only [List.take_succ_cons, List.sum_cons, Nat.add_assoc]

/-! ## The way back -/

/-- A beginning with a newline holds all of the first character. -/
theorem exists_behind {c : Char} {before bytes : List UInt8} (h : before <+: String.utf8EncodeChar c ++ bytes)
    (hmem : newline ∈ before) : ∃ rest, before = String.utf8EncodeChar c ++ rest ∧ rest <+: bytes := by
  rcases List.prefix_or_prefix_of_prefix h (List.prefix_append _ bytes) with hshort | ⟨rest, rfl⟩
  · obtain rfl : c = '\n' := newline_mem_utf8EncodeChar_iff.mp (hshort.subset hmem)
    have hwhole : before = String.utf8EncodeChar '\n' := hshort.eq_of_length_le (List.length_pos_of_mem hmem)
    exact ⟨[], by rw [hwhole, List.append_nil], List.nil_prefix⟩
  · exact ⟨rest, rfl, (List.prefix_append_right_inj _).mp h⟩

/-- The first bytes of a text are made up of the lines that end within them and of the bytes since then. -/
theorem linesSize_add_sinceNewline (cs : List Char) {before : List UInt8}
    (h : before <+: cs.flatMap String.utf8EncodeChar) :
    linesSize (before.count newline) cs + sinceNewline before = before.length := by
  induction cs generalizing before with
  | nil =>
    obtain rfl := List.prefix_nil.mp h
    rfl
  | cons c cs ih =>
    -- Before the first newline no line has ended, and all bytes are since the start.
    by_cases hmem : newline ∈ before
    · obtain ⟨rest, rfl, hrest⟩ := exists_behind h hmem
      have hrest := ih hrest
      by_cases hc : c = '\n'
      · subst hc
        have hbytes : String.utf8EncodeChar '\n' ++ rest = newline :: rest := rfl
        rw [hbytes, List.count_cons_self, linesSize_newline, sinceNewline_newline_cons, List.length_cons]
        omega
      · have hnone : newline ∉ String.utf8EncodeChar c := fun hin => hc (newline_mem_utf8EncodeChar_iff.mp hin)
        have hlater : newline ∈ rest := (List.mem_append.mp hmem).resolve_left hnone
        obtain ⟨k, hk⟩ : ∃ k, rest.count newline = k + 1 :=
          Nat.exists_eq_add_one.mpr (List.count_pos_iff.mpr hlater)
        rw [hk] at hrest
        rw [List.count_append, List.count_eq_zero_of_not_mem hnone, Nat.zero_add, hk, linesSize_cons hc,
          sinceNewline_append, if_pos hlater, List.length_append, String.length_utf8EncodeChar]
        omega
    · rw [List.count_eq_zero_of_not_mem hmem, sinceNewline_eq_length_iff.mpr hmem]
      exact Nat.zero_add _

section

variable {p : Position} {text : String} {o : Nat}

theorem length_bytesBefore (ho : o ≤ text.utf8ByteSize) : (bytesBefore text o).length = o := by
  unfold bytesBefore
  rw [List.length_take]
  exact Nat.min_eq_left ho

/-- The lines above a byte and the bytes before it in its own line hold all bytes before it. -/
theorem IsAt.bytesAbove_add (h : p.IsAt text o) : p.bytesAbove text + (p.column.toNat - 1) = o := by
  have hprefix : bytesBefore text o <+: text.toList.flatMap String.utf8EncodeChar := by
    rw [← toByteArray_eq_flatMap]
    exact List.take_prefix _ _
  have hsum := linesSize_add_sinceNewline text.toList hprefix
  have habove : p.bytesAbove text = linesSize (p.line.toNat - 1) text.toList := rfl
  rw [habove, h.line, h.column, Nat.add_sub_cancel_left, Nat.add_sub_cancel_left, hsum, length_bytesBefore h.within]

/-- As long as it fits into a word, the sum is the offset, unless it is behind the text. -/
theorem offset_eq_min (h : p.bytesAbove text + (p.column.toNat - 1) < UInt64.size) :
    p.offset text = Nat.min (p.bytesAbove text + (p.column.toNat - 1)) text.utf8ByteSize := by
  simp only [offset, ← UInt64.ofNat_add, UInt64.toNat_ofNat_of_lt' h]

theorem IsAt.offset_eq (h : p.IsAt text o) (ho : o < UInt64.size) : p.offset text = o := by
  have hsum := h.bytesAbove_add
  rw [offset_eq_min (by omega), hsum]
  exact Nat.min_eq_left h.within

/-- Neither count exceeds the number of bytes before by more than 1. -/
theorem exists_isAt (hsize : text.utf8ByteSize + 1 < UInt64.size) (ho : o ≤ text.utf8ByteSize) :
    ∃ p : Position, p.IsAt text o := by
  have hlength := length_bytesBefore ho
  have hlines : (bytesBefore text o).count newline ≤ (bytesBefore text o).length := List.count_le_length
  have hcolumns := sinceNewline_le (bytesBefore text o)
  refine ⟨⟨.ofNat (1 + (bytesBefore text o).count newline), .ofNat (1 + sinceNewline (bytesBefore text o))⟩, ho, ?_, ?_⟩
  · exact UInt64.toNat_ofNat_of_lt' (by omega)
  · exact UInt64.toNat_ofNat_of_lt' (by omega)

end

/-- The offset of the position of a byte is the number of bytes before it, if this is a word. All bytes have positions,
as long as words can count to one more than the size of the text. No offset, of whatever line and column, is behind the
text. -/
theorem offset_inverts (text : String) :
    (∀ (p : Position) (o : Nat), o < UInt64.size → p.IsAt text o → p.offset text = o) ∧
      (text.utf8ByteSize + 1 < UInt64.size → ∀ o ≤ text.utf8ByteSize, ∃ p : Position, p.IsAt text o) ∧
      ∀ p : Position, p.offset text ≤ text.utf8ByteSize :=
  ⟨fun _ _ ho h => h.offset_eq ho, fun hsize _ ho => exists_isAt hsize ho, fun _ => Nat.min_le_right _ _⟩

/-- A byte inside a character, and the end of a text behind an empty line. -/
theorem offset_inverts_emptyLine :
    ("é\n\nx".utf8ByteSize + 1 < UInt64.size ∧ ∃ p : Position, p.IsAt "é\n\nx" 3) ∧
      (IsAt ⟨1, 2⟩ "é\n\nx" 1 ∧ offset ⟨1, 2⟩ "é\n\nx" = 1) ∧
      IsAt ⟨3, 2⟩ "é\n\nx" 5 ∧ offset ⟨3, 2⟩ "é\n\nx" = 5 := by
  obtain ⟨hinverts, hexists, -⟩ := offset_inverts "é\n\nx"
  have hsize : "é\n\nx".utf8ByteSize + 1 < UInt64.size := by decide
  have hinside : IsAt ⟨1, 2⟩ "é\n\nx" 1 := by decide
  have hend : IsAt ⟨3, 2⟩ "é\n\nx" 5 := by decide
  exact ⟨⟨hsize, hexists hsize 3 (by decide)⟩, ⟨hinside, hinverts _ 1 (by decide) hinside⟩,
    hend, hinverts _ 5 (by decide) hend⟩

end Position

end Statewise
