import Std.Data.HashMap

/-!
# The order of texts

Texts are compared character by character. The encoding of characters as bytes
keeps their order, and of two different characters neither's bytes begin with the
other's; so comparing the bytes of texts gives the same order.

* `Before`: byte strings that differ, and keep their order whatever follows;
* `before_utf8EncodeChar`: the bytes of two characters;
* `lt_iff_utf8_lt`: texts are ordered as their bytes are.
-/

namespace HashEq

/-- At the first byte in which the two differ, the first one's is smaller. -/
inductive Before : List UInt8 → List UInt8 → Prop
  | head {x y : UInt8} {a b : List UInt8} : x < y → Before (x :: a) (y :: b)
  | tail {x : UInt8} {a b : List UInt8} : Before a b → Before (x :: a) (x :: b)

namespace Before

variable {a b : List UInt8}

/-- One byte of two numbers' encodings, given as numbers. -/
theorem step {m n : Nat} (hle : m ≤ n) (hn : n < 256) (heq : m = n → Before a b) :
    Before (UInt8.ofNat m :: a) (UInt8.ofNat n :: b) := by
  rcases Nat.lt_or_eq_of_le hle with hlt | rfl
  · refine head ?_
    rw [UInt8.lt_iff_toNat_lt, UInt8.toNat_ofNat_of_lt' (Nat.lt_trans hlt hn),
      UInt8.toNat_ofNat_of_lt' hn]
    exact hlt
  · exact tail (heq rfl)

theorem append (h : Before a b) (r r' : List UInt8) : a ++ r < b ++ r' := by
  induction h with
  | head hlt => exact List.cons_lt_cons_iff.2 (.inl hlt)
  | tail _ ih => exact List.cons_lt_cons_iff.2 (.inr ⟨rfl, ih⟩)

end Before

/-- The bytes of a smaller character come first: a shorter encoding starts with a smaller byte, and
    encodings of one length list the digits from the highest on. -/
theorem before_utf8EncodeChar {c d : Char} (h : c < d) :
    Before (String.utf8EncodeChar c) (String.utf8EncodeChar d) := by
  have hlt : c.val.toNat < d.val.toNat := UInt32.lt_iff_toNat_lt.1 h
  have hmax : d.val.toNat < 0x110000 := by
    rcases d.valid with hd | ⟨_, hd⟩
    · exact Nat.lt_trans hd (by decide)
    · exact hd
  rw [String.utf8EncodeChar, String.utf8EncodeChar]
  generalize c.val.toNat = m at *
  generalize d.val.toNat = n at *
  -- The number of bytes of either character is decided in turn. Where they have as many bytes, the
  -- bytes are compared one by one; otherwise the first bytes tell.
  by_cases hm₁ : m ≤ 0x7f
  · rw [if_pos hm₁]
    by_cases hn₁ : n ≤ 0x7f
    · rw [if_pos hn₁]
      exact .step (by omega) (by omega) (by omega)
    · rw [if_neg hn₁]
      split
      · exact .step (by omega) (by omega) (by omega)
      · split
        · exact .step (by omega) (by omega) (by omega)
        · exact .step (by omega) (by omega) (by omega)
  · have hn₁ : ¬n ≤ 0x7f := by omega
    rw [if_neg hm₁, if_neg hn₁]
    by_cases hm₂ : m ≤ 0x7ff
    · rw [if_pos hm₂]
      by_cases hn₂ : n ≤ 0x7ff
      · rw [if_pos hn₂]
        exact .step (by omega) (by omega) fun _ => .step (by omega) (by omega) (by omega)
      · rw [if_neg hn₂]
        split
        · exact .step (by omega) (by omega) (by omega)
        · exact .step (by omega) (by omega) (by omega)
    · have hn₂ : ¬n ≤ 0x7ff := by omega
      rw [if_neg hm₂, if_neg hn₂]
      by_cases hm₃ : m ≤ 0xffff
      · rw [if_pos hm₃]
        by_cases hn₃ : n ≤ 0xffff
        · rw [if_pos hn₃]
          exact .step (by omega) (by omega) fun _ => .step (by omega) (by omega) fun _ =>
            .step (by omega) (by omega) (by omega)
        · rw [if_neg hn₃]
          exact .step (by omega) (by omega) (by omega)
      · have hn₃ : ¬n ≤ 0xffff := by omega
        rw [if_neg hm₃, if_neg hn₃]
        exact .step (by omega) (by omega) fun _ => .step (by omega) (by omega) fun _ =>
          .step (by omega) (by omega) fun _ => .step (by omega) (by omega) (by omega)

/-- The bytes of a text. -/
def utf8 (s : String) : List UInt8 :=
  s.toUTF8.data.toList

theorem utf8_eq (s : String) : utf8 s = s.toList.flatMap String.utf8EncodeChar := by
  have hbytes : s.toByteArray = s.toList.utf8Encode := by
    rw [← String.toByteArray_ofList, String.ofList_toList]
  change s.toByteArray.data.toList = _
  rw [hbytes]
  exact List.toList_data_toByteArray

theorem flatMap_utf8EncodeChar_lt {l l' : List Char} (h : l < l') :
    l.flatMap String.utf8EncodeChar < l'.flatMap String.utf8EncodeChar := by
  induction h with
  | @nil d l =>
    rw [List.flatMap_nil, List.flatMap_cons]
    cases hbytes : String.utf8EncodeChar d with
    | nil =>
      have hlength := String.length_utf8EncodeChar d
      rw [hbytes] at hlength
      exact absurd hlength.symm (Nat.ne_of_gt (Char.utf8Size_pos d))
    | cons x bytes => exact List.nil_lt_cons _ _
  | rel hlt =>
    rw [List.flatMap_cons, List.flatMap_cons]
    exact (before_utf8EncodeChar hlt).append _ _
  | cons _ ih =>
    rw [List.flatMap_cons, List.flatMap_cons]
    exact List.append_left_lt ih

/-- Comparing the bytes of texts gives the order of their characters. -/
theorem lt_iff_utf8_lt {s t : String} : s < t ↔ utf8 s < utf8 t := by
  have hlt : ∀ {s t : String}, s < t → utf8 s < utf8 t := fun {s t} h => by
    rw [utf8_eq, utf8_eq]
    exact flatMap_utf8EncodeChar_lt h
  refine ⟨hlt, fun h => ?_⟩
  -- Of two texts that differ, one comes first, and then so do its bytes.
  by_cases hle : t ≤ s
  · by_cases heq : t = s
    · rw [heq] at h
      exact absurd h (List.lt_irrefl _)
    · exact absurd (hlt (Std.lt_of_le_of_ne hle heq)) (List.lt_asymm h)
  · exact String.not_le.1 hle

end HashEq
