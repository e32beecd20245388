import QLisp.Text.Utf8

/-!
Texts are in the order of their bytes.

Comparing two texts by the code points of their characters compares the bytes that spell them, since a
character with a larger code point is spelled by larger bytes, whatever follows it.
-/

namespace QLisp.Text

/-- The bytes of a character come before those of a later one, whatever follows either. -/
theorem encodeChar_lt {c d : Char} (less : c < d) (rest rest' : Bytes) :
    String.utf8EncodeChar c ++ rest < String.utf8EncodeChar d ++ rest' := by
  have later : c.val.toNat < d.val.toNat := less
  have valid : d.val.toNat < 1114112 := by
    have := d.valid
    simp only [UInt32.isValidChar, Nat.isValidChar] at this
    omega
  have square (n : Nat) : n / 4096 = n / 64 / 64 := by rw [Nat.div_div_eq_div_mul]
  have cube (n : Nat) : n / 262144 = n / 64 / 64 / 64 := by
    rw [Nat.div_div_eq_div_mul, Nat.div_div_eq_div_mul]
  -- More bytes begin with a larger one; as many bytes are digits in base 64.
  simp only [String.utf8EncodeChar]
  generalize c.val.toNat = point at later
  generalize d.val.toNat = point' at later valid
  repeat' split
  all_goals try omega
  all_goals
    simp only [List.cons_append, List.nil_append, List.cons_lt_cons_iff, UInt8.lt_iff_toNat_lt,
      ← UInt8.toNat_inj, UInt8.toNat_ofNat', square, cube]
    omega

/-- The bytes of a text are in the order of its characters. -/
theorem encode_lt {a b : String} (less : a < b) : encode a < encode b := by
  -- By induction on the first text; the first characters that differ decide.
  have ordered : ∀ chars chars' : List Char, chars < chars' →
      chars.flatMap String.utf8EncodeChar < chars'.flatMap String.utf8EncodeChar := by
    intro chars
    induction chars with
    | nil =>
      intro chars' less
      cases chars' with
      | nil => cases less
      -- The empty text comes before any other one.
      | cons d rest' =>
        have spelled : String.utf8EncodeChar d ≠ [] := by simp
        obtain ⟨first, others, same⟩ := List.exists_cons_of_ne_nil spelled
        rw [List.flatMap_cons, same]
        exact List.nil_lt_cons first _
    | cons c rest ih =>
      intro chars' less
      cases chars' with
      | nil => cases less
      | cons d rest' =>
        rw [List.flatMap_cons, List.flatMap_cons]
        -- The first characters differ, or the rest decides.
        rcases List.cons_lt_cons_iff.mp less with first | ⟨rfl, later⟩
        · exact encodeChar_lt first _ _
        · exact List.append_left_lt (ih rest' later)
  exact ordered _ _ (String.lt_iff.mp less)

end QLisp.Text
