import DocBlocks.Literal.Quoted
import Mathlib.Tactic.SplitIfs
import Mathlib.Data.String.Basic

/-!
# Texts and their bytes

`bytesOf_lt_bytesOf`: texts are in the order of their bytes.

A text is before another one where it ends earlier or has an earlier character, and characters are
in the order of their numbers. The bytes of a character are the digits of its number behind one that
says how many there are. So the bytes of two characters differ somewhere
(`precedes_utf8EncodeChar`), and what stands behind them makes no difference.
-/

namespace DocBlocks

/-! ### Bytes of characters, one behind the other -/

theorem bytesOf_cons (c : Char) (cs : List Char) :
    bytesOf (c :: cs) = String.utf8EncodeChar c ++ bytesOf cs :=
  List.flatMap_cons

theorem bytesOf_append (cs ds : List Char) : bytesOf (cs ++ ds) = bytesOf cs ++ bytesOf ds :=
  List.flatMap_append

theorem toUTF8_eq_bytesOf (s : String) : s.toUTF8 = (bytesOf s.toList).toByteArray := by
  rw [String.toUTF8_eq_toByteArray, ← String.ofList_toList (s := s), String.toByteArray_ofList,
    String.toList_ofList]
  rfl

/-! ### Order -/

/-- Whether some bytes differ from other ones, the first time with a smaller one. -/
inductive Precedes : List UInt8 → List UInt8 → Prop
  | head {b c : UInt8} {bs cs : List UInt8} (lt : b < c) : Precedes (b :: bs) (c :: cs)
  | tail {b : UInt8} {bs cs : List UInt8} (precedes : Precedes bs cs) : Precedes (b :: bs) (b :: cs)

theorem precedes_cons {b c : UInt8} {bs cs : List UInt8} :
    Precedes (b :: bs) (c :: cs) ↔ b < c ∨ b = c ∧ Precedes bs cs := by
  constructor
  · rintro (hlt | htail)
    · exact .inl hlt
    · exact .inr ⟨rfl, htail⟩
  · rintro (hlt | ⟨rfl, htail⟩)
    · exact .head hlt
    · exact .tail htail

theorem not_precedes_nil {bs : List UInt8} : ¬ Precedes bs [] := nofun

/-- What stands behind bytes that differ makes no difference. -/
theorem Precedes.append_lt {bs cs : List UInt8} (h : Precedes bs cs) (xs ys : List UInt8) :
    bs ++ xs < cs ++ ys := by
  induction h with
  | head lt => exact List.cons_lt_cons_iff.2 (.inl lt)
  | tail _ ih => exact List.cons_lt_cons_iff.2 (.inr ⟨rfl, ih⟩)

/-- **Characters are in the order of their bytes.** -/
theorem precedes_utf8EncodeChar {c d : Char} (h : c < d) :
    Precedes (String.utf8EncodeChar c) (String.utf8EncodeChar d) := by
  have hlt : c.val.toNat < d.val.toNat := h
  have hd : d.val.toNat < 1114112 := by
    have := d.valid
    simp only [UInt32.isValidChar, Nat.isValidChar] at this
    omega
  -- the digits are taken off one at a time, each by a division by 64
  have hsecond (n : Nat) : n / 4096 = n / 64 / 64 := by omega
  have hthird (n : Nat) : n / 262144 = n / 64 / 64 / 64 := by omega
  simp only [String.utf8EncodeChar, hsecond, hthird]
  -- more digits have a greater byte in front of them, as many are compared one by one
  split_ifs <;> simp only [precedes_cons, not_precedes_nil, UInt8.lt_iff_toNat_lt,
    ← UInt8.toNat_inj, UInt8.toNat_ofNat'] <;> omega

theorem bytesOf_lt_of_lt {cs ds : List Char} (h : cs < ds) : bytesOf cs < bytesOf ds := by
  induction cs generalizing ds with
  | nil =>
    cases ds with
    | nil => exact absurd h (List.lt_irrefl [])
    | cons d ds =>
      -- no character is without bytes
      obtain ⟨b, bs, hbytes⟩ := List.exists_cons_of_ne_nil (String.utf8EncodeChar_ne_nil (c := d))
      rw [bytesOf_cons, hbytes]
      exact List.nil_lt_cons _ _
  | cons c cs ih =>
    cases ds with
    | nil => exact absurd h (List.not_lt_nil _)
    | cons d ds =>
      rw [bytesOf_cons, bytesOf_cons]
      rcases List.cons_lt_cons_iff.1 h with hlt | ⟨rfl, hlt⟩
      · exact (precedes_utf8EncodeChar hlt).append_lt _ _
      · exact List.append_left_lt (ih hlt)

/-- **Texts are in the order of their bytes.** -/
theorem bytesOf_lt_bytesOf {s t : String} : bytesOf s.toList < bytesOf t.toList ↔ s < t := by
  constructor
  · intro h
    rcases lt_trichotomy s t with hlt | rfl | hgt
    · exact hlt
    · exact absurd h (List.lt_irrefl _)
    · exact absurd h (List.lt_asymm (bytesOf_lt_of_lt (String.lt_iff_toList_lt.1 hgt)))
  · exact fun h => bytesOf_lt_of_lt (String.lt_iff_toList_lt.1 h)

end DocBlocks
