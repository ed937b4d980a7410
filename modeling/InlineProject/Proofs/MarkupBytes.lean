import Mathlib
import InlineProject.Proofs.CanonicalMarkup
import InlineProject.Proofs.SourceBytes
import InlineProject.Xml.Encoding
/-!
Documents as bytes. A document that starts with its root has no mark and no declaration, so its bytes are
taken for UTF-8.
-/

namespace InlineProject.Xml

open Source (encode fromUTF8?_encode toUTF8_encode)

variable {c : Char} {cs : List Char} {keep : Comments} {n : Node} {uri : String}

theorem toList_loop (bytes : ByteArray) (i : Nat) (front : List UInt8) :
    ByteArray.toList.loop bytes i front = front.reverse ++ bytes.data.toList.drop i := by
  induction i, front using ByteArray.toList.loop.induct bytes with
  | case1 i front inside ih =>
    have within : i < bytes.data.toList.length := by simpa using inside
    have next : bytes.get! i = bytes.data.toList[i] := by
      simp only [ByteArray.get!, Array.getElem_toList]
      exact getElem!_pos bytes.data i (by simpa using inside)
    rw [ByteArray.toList.loop, if_pos inside, ih, List.drop_eq_getElem_cons within, next]
    simp
  | case2 i front outside =>
    have beyond : bytes.data.toList.length ≤ i := by simpa using outside
    rw [ByteArray.toList.loop, if_neg outside, List.drop_eq_nil_of_le beyond, List.append_nil]

theorem toList_encode (s : String) : s.toUTF8.toList = encode s.toList := by
  rw [ByteArray.toList, toList_loop, List.drop_zero, toUTF8_encode]
  rfl

theorem ofNat_letter {v : Nat} (low : 0x40 ≤ v) (high : v < 0x100) :
    UInt8.ofNat v ≠ 0 ∧ (UInt8.ofNat v).toNat = v := by
  have value : (UInt8.ofNat v).toNat = v := by
    rw [UInt8.toNat_ofNat']
    exact Nat.mod_eq_of_lt high
  refine ⟨fun same => ?_, value⟩
  rw [same] at value
  have zero : (0 : UInt8).toNat = 0 := rfl
  omega

-- The first byte of a character that starts a name is that of no mark and of no instruction.
theorem encode_starts (starts : startsName c = true) :
    ∃ b rest, String.utf8EncodeChar c = b :: rest ∧ b ≠ 0 ∧ 0x40 ≤ b.toNat := by
  have bounds := startsName_bounds starts
  have value : c.val.toNat = c.toNat := rfl
  have letter {v : Nat} {rest : List UInt8} (low : 0x40 ≤ v) (high : v < 0x100) :
      ∃ b more, UInt8.ofNat v :: rest = b :: more ∧ b ≠ 0 ∧ 0x40 ≤ b.toNat := by
    obtain ⟨some, same⟩ := ofNat_letter low high
    exact ⟨_, _, rfl, some, same.symm ▸ low⟩
  unfold String.utf8EncodeChar
  dsimp only
  rw [value]
  split
  · exact letter (by omega) (by omega)
  · split
    · exact letter (by omega) (by omega)
    · rw [if_pos (by omega)]
      exact letter (by omega) (by omega)

theorem textOfBytes_begins {s : String} (split : s.toList = '<' :: cs) (begins : Begins cs) :
    textOfBytes s.toUTF8.toList = .ok s.toList := by
  obtain ⟨c, more, rfl, starts⟩ := begins
  obtain ⟨b, rest, bytes, some, letter⟩ := encode_starts starts
  have decoded := fromUTF8?_encode s
  have encoded : encode s.toList = 0x3C :: b :: (rest ++ encode more) := by
    rw [split, encode, List.flatMap_cons, List.flatMap_cons, bytes]
    rfl
  rw [toList_encode]
  rw [encoded] at decoded ⊢
  have narrow : wideStart? (0x3C :: b :: (rest ++ encode more)) = none := by
    unfold wideStart?
    split
    · rename_i same
      cases same
    · rename_i same
      cases same
    · rename_i same
      cases same
    · rename_i same
      exact absurd (List.cons.inj (List.cons.inj same).2).1 some
    · rfl
  have other : '?' ≠ Char.ofNat b.toNat := by
    intro same
    have value : (Char.ofNat b.toNat).toNat = b.toNat := by
      rw [Char.toNat_ofNat, if_pos (.inl (by have := b.toNat_lt; omega))]
    rw [← same] at value
    have question : '?'.toNat = 0x3F := rfl
    omega
  have undeclared : declaredEncoding? ((0x3C :: b :: (rest ++ encode more)).map fun b => Char.ofNat b.toNat)
      = none := by
    have first : (0x3C :: b :: (rest ++ encode more)).map (fun b => Char.ofNat b.toNat)
        = '<' :: Char.ofNat b.toNat :: (rest ++ encode more).map fun b => Char.ofNat b.toNat := rfl
    rw [first, declaredEncoding?, after?_other "<?xml" rfl other]
    rfl
  have bare : dropMark (0x3C :: b :: (rest ++ encode more)) = 0x3C :: b :: (rest ++ encode more) := rfl
  unfold textOfBytes
  rw [narrow]
  dsimp only
  rw [bare, undeclared]
  dsimp only [Encoding.decode?]
  rw [decoded]
  rfl

theorem parseBytes_begins {s : String} (split : s.toList = '<' :: cs) (begins : Begins cs) :
    parseBytes s.toUTF8 = match parse? .dropped s.toList with
      | some root => .ok root
      | none => .error .malformed := by
  unfold parseBytes
  rw [textOfBytes_begins split begins, split]
  rfl

end InlineProject.Xml
