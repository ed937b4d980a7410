import InlineProject.Proofs.SourceLayout
/-!
The bytes of a source file, and those that are left when some of its parts go. What is left are the
bytes outside of the parts' ranges, in their order.
-/

namespace InlineProject.Source

def encode (cs : List Char) : List UInt8 := cs.flatMap String.utf8EncodeChar

theorem encode_append (cs ds : List Char) : encode (cs ++ ds) = encode cs ++ encode ds :=
  List.flatMap_append

theorem toUTF8_encode (s : String) : s.toUTF8.data.toList = encode s.toList := by
  rw [String.toUTF8_eq_toByteArray, ← String.utf8Encode_toList]
  unfold List.utf8Encode encode
  rw [List.data_toByteArray, List.toList_toArray]

theorem fromUTF8?_encode (s : String) : String.fromUTF8? ⟨(encode s.toList).toArray⟩ = some s := by
  have same : (⟨(encode s.toList).toArray⟩ : ByteArray) = s.toUTF8 := by
    rw [← toUTF8_encode]
  rw [same]
  exact dif_pos s.isValidUTF8

-- The bytes of a range of characters.
def Range.inBytes (cs : List Char) (r : Range) : Range :=
  ⟨(encode (cs.take r.start)).length, (encode (cs.take r.stop)).length⟩

def Range.holds (r : Range) (i : Nat) : Bool := r.start ≤ i && i < r.stop

theorem holds_exact {r : Range} {i : Nat} : r.holds i = true ↔ r.start ≤ i ∧ i < r.stop := by
  unfold Range.holds
  rw [Bool.and_eq_true, decide_eq_true_eq, decide_eq_true_eq]

section Left

variable {cs : List Char}

theorem drop_textOf {start stop : Nat} (ordered : start ≤ stop) (within : stop ≤ cs.length) :
    cs.drop start = textOf cs ⟨start, stop⟩ ++ cs.drop stop := by
  have parts : cs.take stop ++ cs.drop stop = cs := List.take_append_drop stop cs
  have reaches : start ≤ (cs.take stop).length := by
    rw [List.length_take_of_le within]
    exact ordered
  calc cs.drop start
      = (cs.take stop ++ cs.drop stop).drop start := by rw [parts]
    _ = textOf cs ⟨start, stop⟩ ++ cs.drop stop := List.drop_append_of_le_length reaches

-- The spans of a row lie behind the place where it starts.
theorem tiled_start_le {start stop : Nat} {spans : List Span} (tiled : Tiled stop start spans) :
    ∀ s ∈ spans, start ≤ s.range.start := by
  induction spans generalizing start with
  | nil =>
    intro s none
    cases none
  | cons t rest ih =>
    intro s member
    obtain ⟨starts, ordered, later⟩ := tiled
    rcases List.mem_cons.mp member with rfl | behind
    · exact Nat.le_of_eq starts.symm
    · exact Nat.le_trans ordered (ih later s behind)

end Left

end InlineProject.Source
