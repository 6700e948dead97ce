import KeypadCalculator.Text.Basic

/-!
Text as the bytes of its UTF-8 form. Reading undoes writing, and any other bytes are refused.
-/

namespace KeypadCalculator.Text

def toBytes (t : Text) : List UInt8 :=
  t.flatMap String.utf8EncodeChar

/-- The text with these bytes, if they are well-formed UTF-8. -/
def ofBytes? (bytes : List UInt8) : Option Text :=
  (String.fromUTF8? bytes.toByteArray).map String.toList

theorem ofBytes?_toBytes (t : Text) : ofBytes? (toBytes t) = some t := by
  have h : (toBytes t).toByteArray = (String.ofList t).toByteArray := rfl
  rw [ofBytes?, h, String.fromUTF8?, dif_pos (String.ofList t).isValidUTF8]
  exact congrArg some String.toList_ofList

theorem ofBytes?_eq_some_iff {bytes : List UInt8} {t : Text} :
    ofBytes? bytes = some t ↔ bytes = toBytes t := by
  constructor
  · intro h
    rw [ofBytes?, String.fromUTF8?] at h
    split at h
    · next hvalid =>
      obtain rfl := Option.some.inj h
      apply List.toByteArray_inj.mp
      calc bytes.toByteArray = (String.fromUTF8 bytes.toByteArray hvalid).toByteArray := rfl
        _ = (String.ofList (String.fromUTF8 bytes.toByteArray hvalid).toList).toByteArray := by
          rw [String.ofList_toList]
        _ = (toBytes (String.fromUTF8 bytes.toByteArray hvalid).toList).toByteArray := rfl
    · cases h
  · rintro rfl
    exact ofBytes?_toBytes t

/-- A byte below 128 at the end of an encoded character is all of it. -/
theorem eq_nil_of_encodeChar_concat {c : Char} {bytes : List UInt8} {b : UInt8}
    (h : String.utf8EncodeChar c = bytes ++ [b]) (hb : b.toNat < 128) : bytes = [] := by
  have hlast := congrArg List.getLast? h
  rw [List.getLast?_concat, String.utf8EncodeChar] at hlast
  by_cases hsmall : c.val.toNat ≤ 127
  · have hlength := congrArg List.length h
    simp only [String.utf8EncodeChar, if_pos hsmall, List.length_append, List.length_singleton]
      at hlength
    exact List.eq_nil_of_length_eq_zero (by omega)
  · exfalso
    have hcontinued : UInt8.ofNat (c.val.toNat % 64 + 128) = b := by
      rw [if_neg hsmall] at hlast
      split at hlast
      · exact Option.some.inj hlast
      · split at hlast <;> exact Option.some.inj hlast
    rw [← hcontinued, UInt8.toNat_ofNat'] at hb
    omega

/-- A byte below 128 at the end is a character of its own. -/
theorem ofBytes?_concat (bytes : List UInt8) {c : Char} (hc : c.toNat < 128) :
    ofBytes? (bytes ++ [UInt8.ofNat c.toNat]) = (ofBytes? bytes).map (· ++ [c]) := by
  have hchar : String.utf8EncodeChar c = [UInt8.ofNat c.toNat] := if_pos (Nat.le_of_lt_succ hc)
  cases h : ofBytes? bytes with
  | some t =>
    rw [ofBytes?_eq_some_iff.mp h]
    apply ofBytes?_eq_some_iff.mpr
    rw [toBytes, toBytes, List.flatMap_append, List.flatMap_singleton, hchar]
  | none =>
    rw [Option.map_none, Option.eq_none_iff_forall_ne_some]
    intro u hu
    have hbytes := ofBytes?_eq_some_iff.mp hu
    rcases List.eq_nil_or_concat u with rfl | ⟨t, d, rfl⟩
    · simp [toBytes] at hbytes
    have hlast : toBytes (t ++ [d]) = toBytes t ++ String.utf8EncodeChar d := by
      rw [toBytes, toBytes, List.flatMap_append, List.flatMap_singleton]
    have hne : String.utf8EncodeChar d ≠ [] := by
      apply List.ne_nil_of_length_pos
      rw [String.length_utf8EncodeChar]
      exact d.utf8Size_pos
    obtain ⟨ds, b, hd⟩ := (List.eq_nil_or_concat _).resolve_left hne
    rw [List.concat_eq_append, hlast, hd, List.concat_eq_append, ← List.append_assoc] at hbytes
    obtain ⟨hinit, hb⟩ := List.append_inj' hbytes rfl
    obtain rfl : UInt8.ofNat c.toNat = b := List.singleton_inj.mp hb
    have hnil := eq_nil_of_encodeChar_concat (hd.trans List.concat_eq_append)
      (by rw [UInt8.toNat_ofNat']; omega)
    rw [hnil, List.append_nil] at hinit
    rw [hinit, ofBytes?_toBytes] at h
    cases h

end KeypadCalculator.Text
