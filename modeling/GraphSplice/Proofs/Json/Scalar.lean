import GraphSplice.Proofs.Except
import GraphSplice.Proofs.Json.Codec
import GraphSplice.Proofs.Json.Reader
import Mathlib.Data.List.Basic

/-!
Texts and numbers read back. The texts are made of plain characters, of which each is one byte and
none is escaped; the numbers are those whose digits all fit the significand.
-/

namespace GraphSplice

/-! ## Plain texts -/

namespace Text

open Json (byte)

theorem toNat_byte {c : Char} (small : c.toNat < 0x80) : (byte c).toNat = c.toNat :=
  UInt8.toNat_ofNat_of_lt' (Nat.lt_trans small (by decide))

theorem byte_inj {c d : Char} (small : c.toNat < 0x80) (small' : d.toNat < 0x80) :
    byte c = byte d ↔ c = d := by
  constructor
  · intro same
    apply Char.toNat_inj.mp
    rw [← toNat_byte small, ← toNat_byte small', same]
  · intro same
    rw [same]

namespace Utf8

@[simp]
theorem encode_append (s t : String) : encode (s ++ t) = encode s ++ encode t := by
  simp [encode]

theorem encode_ofList {cs : List Char} (small : ∀ c ∈ cs, c.toNat < 0x80) :
    encode (String.ofList cs) = cs.map byte := by
  have single : ∀ c ∈ cs, String.utf8EncodeChar c = [byte c] := by
    intro c mem
    have bound : c.val.toNat ≤ 127 := Nat.le_of_lt_succ (small c mem)
    rw [String.utf8EncodeChar, if_pos bound]
    rfl
  rw [encode, String.toList_ofList, List.flatMap_congr single, List.map_eq_flatMap]

theorem decode?_map_byte {cs : List Char} (small : ∀ c ∈ cs, c.toNat < 0x80) :
    decode? (cs.map byte) = some (String.ofList cs) := by
  have scanned : scan (cs.map byte) = cs.map some := by
    induction cs with
    | nil => simp [scan]
    | cons c cs ih =>
      have bound : c.toNat < 0x80 := small c List.mem_cons_self
      have lead : first (byte c) (cs.map byte) = (some c, 0) := by
        simp [first, toNat_byte bound, bound]
      rw [List.map_cons, scan, lead, List.drop_zero,
        ih fun d mem => small d (List.mem_cons_of_mem c mem), List.map_cons]
  have gathered : cs.mapM some = some (cs.map id) := mapM_some_of_forall fun _ _ => rfl
  simp [decode?, scanned, gathered]

end Utf8

end Text

namespace Json

open Text

theorem renderText_of_plain {s : String} (plain : IsPlain s) :
    renderText s = "\"" ++ s ++ "\"" := by
  have kept : ∀ c ∈ s.toList, escapeChar c = [c] := by
    intro c mem
    obtain ⟨printed, -, notQuote, notBackslash⟩ := plain c mem
    have notControl (d : Char) (control : d.toNat < 0x20) : c ≠ d := by
      intro same
      rw [same] at printed
      omega
    simp [escapeChar, notQuote, notBackslash, notControl, printed]
  rw [renderText, List.flatMap_congr kept, List.flatMap_singleton', String.ofList_toList]

namespace Reader

/-- Plain bytes are taken as they are, up to the closing quote. -/
theorem reads_plainBytes {cs : List Char} (plain : ∀ c ∈ cs, IsPlainChar c) (taken rest : Bytes) :
    (loop (textRound true) taken).Reads (cs.map byte ++ byte '"' :: rest)
      (taken.reverse ++ cs.map byte) rest := by
  induction cs generalizing taken with
  | nil =>
    refine .done ((reads_next _ _).bind ?_)
    simp only [if_true, List.map_nil, List.append_nil]
    exact reads_pure _ _
  | cons c cs ih =>
    obtain ⟨printed, small, notQuote, notBackslash⟩ := plain c List.mem_cons_self
    have notQuote : byte c ≠ byte '"' := mt (byte_inj small (by decide)).mp notQuote
    have notBackslash : byte c ≠ byte '\\' := mt (byte_inj small (by decide)).mp notBackslash
    have printed : ¬ (byte c).toNat < 0x20 := by
      rw [toNat_byte small]
      omega
    have read := ih (fun d mem => plain d (List.mem_cons_of_mem c mem)) (byte c :: taken)
    rw [List.reverse_cons, List.append_assoc] at read
    refine .step ((reads_next _ _).bind ?_) (by simp) read
    simp only [notQuote, notBackslash, printed, if_false]
    exact reads_pure _ _

theorem reads_text {s : String} (plain : IsPlain s) (rest : Bytes) :
    text.Reads (Utf8.encode s ++ byte '"' :: rest) s rest := by
  have small : ∀ c ∈ s.toList, c.toNat < 0x80 := fun c mem => (plain c mem).2.1
  have encoded := Utf8.encode_ofList small
  have decoded := Utf8.decode?_map_byte small
  rw [String.ofList_toList] at encoded decoded
  rw [encoded]
  refine (reads_plainBytes plain [] rest).bind ?_
  simp only [List.reverse_nil, List.nil_append, decoded]
  exact reads_pure s rest

/-! ## Numbers -/

theorem le_foldl_digits (ds : List Nat) (n : Nat) : n ≤ ds.foldl (fun n d => n * 10 + d) n := by
  induction ds generalizing n with
  | nil => exact Nat.le_refl n
  | cons d ds ih => exact Nat.le_trans (by omega) (ih (n * 10 + d))

/-- All digits are taken when the number they spell fits. -/
theorem takeDigits_eq (t : Taken) (ds : List Nat)
    (fits : ds.foldl (fun n d => n * 10 + d) t.significand ≤ significandBound) :
    takeDigits t ds =
      ⟨ds.foldl (fun n d => n * 10 + d) t.significand, t.used + ds.length, t.dropped⟩ := by
  induction ds generalizing t with
  | nil => rfl
  | cons d ds ih =>
    have fitsNow : t.significand * 10 + d ≤ significandBound :=
      Nat.le_trans (le_foldl_digits ds _) fits
    rw [takeDigits, if_pos fitsNow, ih _ fits]
    simp only [List.foldl_cons, List.length_cons, Nat.add_assoc, Nat.add_comm 1]

theorem foldl_toDigits (n : Nat) :
    ((Nat.toDigits 10 n).map fun c => c.toNat - 48).foldl (fun n d => n * 10 + d) 0 = n := by
  have spelled := Nat.ofDigitChars_toDigits (b := 10) (n := n) (by decide) (by decide)
  simpa [Nat.ofDigitChars, List.foldl_map, Nat.mul_comm] using spelled

/-- Only zero is written with a zero in front. -/
theorem tail_of_toDigits_zero {n : Nat} {cs : List Char}
    (written : Nat.toDigits 10 n = '0' :: cs) : cs = [] := by
  induction n using Nat.strongRecOn generalizing cs with
  | _ n ih =>
    rw [Nat.toDigits_eq_if (by decide)] at written
    split at written
    · exact (List.cons.inj written).2.symm
    · next large =>
      cases front : Nat.toDigits 10 (n / 10) with
      | nil => exact absurd front Nat.toDigits_ne_nil
      | cons c ds =>
        rw [front, List.cons_append] at written
        obtain ⟨rfl, -⟩ := List.cons.inj written
        have single : ds = [] := ih (n / 10) (by omega) front
        have value := foldl_toDigits (n / 10)
        rw [front, single] at value
        have vanishes : 0 = n / 10 := value
        omega

theorem toNat_of_mem_toDigits {n : Nat} {c : Char} (mem : c ∈ Nat.toDigits 10 n) :
    48 ≤ c.toNat ∧ c.toNat ≤ 57 := by
  have isDigit := Nat.isDigit_of_mem_toDigits (by decide) (by decide) mem
  simpa [Char.isDigit, UInt32.le_iff_toNat_le] using isDigit

theorem isDigit_byte {n : Nat} {c : Char} (mem : c ∈ Nat.toDigits 10 n) :
    isDigit (byte c) = true ∧ digit (byte c) = c.toNat - 48 := by
  have range := toNat_of_mem_toDigits mem
  have same : (byte c).toNat = c.toNat := toNat_byte (by omega)
  simp [isDigit, digit, same, range]

/-- No number goes on here. -/
def EndsNumber (rest : Bytes) : Prop :=
  ∀ b ∈ rest.head?, isDigit b = false ∧ b ≠ byte '.' ∧ isExponentMark (some b) = false

theorem reads_digits (n : Nat) {rest : Bytes} (ended : EndsNumber rest) :
    digits.Reads ((Nat.toDigits 10 n).map byte ++ rest)
      ((Nat.toDigits 10 n).map fun c => c.toNat - 48) rest := by
  have all : ∀ b ∈ (Nat.toDigits 10 n).map byte, isDigit b = true := by
    intro b mem
    obtain ⟨c, written, rfl⟩ := List.mem_map.mp mem
    exact (isDigit_byte written).1
  have values : ((Nat.toDigits 10 n).map byte).map digit =
      (Nat.toDigits 10 n).map fun c => c.toNat - 48 := by
    rw [List.map_map]
    exact List.map_congr_left fun c mem => (isDigit_byte mem).2
  rw [← values]
  exact (reads_takeWhile all fun b mem => (ended b mem).1).bind (reads_pure _ rest)

theorem reads_number {n : Nat} (fits : n ≤ significandBound) {rest : Bytes}
    (ended : EndsNumber rest) :
    (number false).Reads ((Nat.toDigits 10 n).map byte ++ rest) (.integer n) rest := by
  have notPoint : rest.head? ≠ some (byte '.') := fun same => (ended _ same).2.1 rfl
  have notExponent : isExponentMark rest.head? = false := by
    cases next : rest.head? with
    | none => rfl
    | some b => exact (ended b next).2.2
  have taken := takeDigits_eq ⟨0, 0, 0⟩ ((Nat.toDigits 10 n).map fun c => c.toNat - 48) (by
    rw [foldl_toDigits]
    exact fits)
  have read := reads_digits n ended
  cases written : Nat.toDigits 10 n with
  | nil => exact absurd written Nat.toDigits_ne_nil
  | cons c cs =>
    have mem : c ∈ Nat.toDigits 10 n := written ▸ List.mem_cons_self
    have first : isDigit (byte c) = true := (isDigit_byte mem).1
    have noZero : ¬ (byte c = byte '0' ∧ 1 < ((c :: cs).map fun c => c.toNat - 48).length) := by
      intro ⟨zero, long⟩
      have range := toNat_of_mem_toDigits mem
      have zero : c = '0' := (byte_inj (by omega) (by decide)).mp zero
      have alone : cs = [] := tail_of_toDigits_zero (zero ▸ written)
      simp [alone] at long
    rw [written] at read
    refine (reads_peek _).bind ?_
    simp only [List.map_cons, List.cons_append, List.head?_cons, first, not_true, if_false]
    refine read.bind ?_
    rw [if_neg noZero]
    refine (reads_peek rest).bind ?_
    rw [← written, taken]
    simp only [notPoint, notExponent, if_false, if_true, Bool.false_eq_true, foldl_toDigits]
    exact reads_pure _ rest

end Reader

end Json

end GraphSplice
