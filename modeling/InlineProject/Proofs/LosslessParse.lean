import InlineProject.Proofs.OctetRanges
import InlineProject.Proofs.WrittenSource
/-!
A text is cut without loss. Whatever comments and directives a grammar finds among the bytes of a text, as long
as each of them is made of whole characters, every part is a text, none is empty, and together they are the text.
-/

namespace InlineProject.Source

variable {cs : List Char} {text : String} {r : Range} {s : Span} {done rest spans : List Span}

/-! ### Spans in characters and in bytes -/

def Span.inBytes (cs : List Char) (s : Span) : Span := ⟨s.range.inBytes cs, s.kind⟩

theorem decode_encode : Utf8.decode ⟨(encode cs).toArray⟩ = .ok (String.ofList cs) := by
  have read := fromUTF8?_encode (String.ofList cs)
  rw [String.toList_ofList] at read
  unfold Utf8.decode
  rw [read]

theorem mend_encode : Utf8.mend (encode cs) = cs := by
  unfold Utf8.mend
  cases cs with
  | nil => rfl
  | cons c more =>
    have some := encode_ne_nil (List.cons_ne_nil c more)
    obtain ⟨n, length⟩ := Nat.exists_eq_succ_of_ne_zero fun none => some (List.length_eq_zero_iff.mp none)
    rw [length, Utf8.mendFrom, decode_encode]
    exact String.toList_ofList

theorem commentSpan_encoded (within : r.Within cs.length) :
    Octets.commentSpan (encode cs) (r.inBytes cs) = Span.inBytes cs ⟨r.extend cs, classify (textOf cs r)⟩ := by
  unfold Octets.commentSpan
  rw [extend_encoded (Nat.le_trans within.1 within.2) within.2, slice_encoded, mend_encode]
  rfl

theorem extend_within (within : r.Within cs.length) : (r.extend cs).Within cs.length :=
  owns_within within (extend_owns_within within)

theorem offset_eq {j k : Nat} (left : j ≤ cs.length) (right : k ≤ cs.length) : offset cs j = offset cs k ↔ j = k := by
  have below := offset_lt cs left right
  have above := offset_lt cs right left
  omega

theorem mergeFrom_encoded {comments : List Range} (within : ∀ r ∈ comments, r.Within cs.length)
    (inside : ∀ s ∈ done, s.range.Within cs.length) :
    Octets.mergeFrom (Octets.commentSpan (encode cs)) (done.map (Span.inBytes cs)) (comments.map (Range.inBytes cs))
      = (commentSpansFrom cs done comments).map (Span.inBytes cs) := by
  induction comments generalizing done with
  | nil => exact List.map_reverse.symm
  | cons r comments ih =>
    have here := within r List.mem_cons_self
    have own := extend_within here
    have later : ∀ r ∈ comments, r.Within cs.length := fun r member => within r (List.mem_cons_of_mem _ member)
    have all {s : Span} {rest : List Span} (first : s.range.Within cs.length)
        (others : ∀ s ∈ rest, s.range.Within cs.length) : ∀ t ∈ s :: rest, t.range.Within cs.length := by
      intro t member
      rcases List.mem_cons.mp member with rfl | old
      · exact first
      · exact others t old
    rw [List.map_cons]
    unfold Octets.mergeFrom commentSpansFrom
    rw [commentSpan_encoded here]
    cases done with
    | nil => exact @ih [_] later (all own inside)
    | cons last before =>
      have known := inside last List.mem_cons_self
      have earlier : ∀ s ∈ before, s.range.Within cs.length := fun s member => inside s (List.mem_cons_of_mem _ member)
      have meets : offset cs last.range.stop = offset cs (r.extend cs).start ↔ last.range.stop = (r.extend cs).start :=
        offset_eq known.2 (Nat.le_trans own.1 own.2)
      have same : decide (offset cs last.range.stop = offset cs (r.extend cs).start)
          = decide (last.range.stop = (r.extend cs).start) := decide_eq_decide.mpr meets
      dsimp only [List.map_cons]
      change (if (decide (classify (textOf cs r) = .lineDoc) && decide (last.kind = classify (textOf cs r))
          && decide (offset cs last.range.stop = offset cs (r.extend cs).start)) = true then _ else _) = _
      rw [same]
      split
      · rename_i merges
        simp only [Bool.and_eq_true, decide_eq_true_eq] at merges
        refine @ih (⟨⟨last.range.start, (r.extend cs).stop⟩, classify (textOf cs r)⟩ :: before) later
          (all ?_ earlier)
        exact ⟨Nat.le_trans known.1 (merges.2 ▸ own.1), own.2⟩
      · exact @ih (⟨r.extend cs, _⟩ :: last :: before) later (all own inside)

theorem insert_encoded (here : s.range.Within cs.length) (inside : ∀ t ∈ spans, t.range.Within cs.length) :
    (s.inBytes cs).insert (spans.map (Span.inBytes cs)) = (s.insert spans).map (Span.inBytes cs) := by
  induction spans with
  | nil => rfl
  | cons other rest ih =>
    have known := inside other List.mem_cons_self
    have first := offset_lt cs (Nat.le_trans here.1 here.2) (Nat.le_trans known.1 known.2)
    have later := ih fun t member => inside t (List.mem_cons_of_mem _ member)
    unfold Span.insert
    by_cases before : s.range.start < other.range.start
    · rw [if_pos before]
      exact if_pos (first.mpr before)
    · rw [if_neg before, List.map_cons, List.map_cons, ← later]
      exact if_neg fun less => before (first.mp less)

theorem sorted_encoded (inside : ∀ t ∈ spans, t.range.Within cs.length) :
    Span.sorted (spans.map (Span.inBytes cs)) = (Span.sorted spans).map (Span.inBytes cs) := by
  have from_ (done : List Span) (placed : ∀ t ∈ done, t.range.Within cs.length) :
      (spans.map (Span.inBytes cs)).foldl (fun done s => s.insert done) (done.map (Span.inBytes cs))
        = (spans.foldl (fun done s => s.insert done) done).map (Span.inBytes cs) := by
    induction spans generalizing done with
    | nil => rfl
    | cons s rest ih =>
      have here := inside s List.mem_cons_self
      rw [List.map_cons, List.foldl_cons, List.foldl_cons, insert_encoded here placed]
      refine ih (fun t member => inside t (List.mem_cons_of_mem _ member)) _ fun t member => ?_
      rcases List.mem_cons.mp ((insert_perm s done).mem_iff.mp member) with rfl | old
      · exact here
      · exact placed t old
  exact from_ [] nofun

theorem tilesFrom_encoded {cursor : Nat} (reached : cursor ≤ cs.length) (inside : ∀ t ∈ spans, t.range.Within cs.length) :
    tilesFrom (encode cs).length (offset cs cursor) (spans.map (Span.inBytes cs))
      = (tilesFrom cs.length cursor spans).map (Span.inBytes cs) := by
  have whole : (encode cs).length = offset cs cs.length := by
    unfold offset
    rw [List.take_length]
  induction spans generalizing cursor with
  | nil =>
    have left := offset_lt cs reached (Nat.le_refl _)
    rw [List.map_nil, whole]
    unfold tilesFrom
    by_cases before : cursor < cs.length
    · rw [if_pos before, if_pos (left.mpr before)]
      rfl
    · rw [if_neg before, if_neg fun less => before (left.mp less)]
      rfl
  | cons s rest ih =>
    have here := inside s List.mem_cons_self
    have starts := Nat.le_trans here.1 here.2
    have later : ∀ t ∈ rest, t.range.Within cs.length := fun t member => inside t (List.mem_cons_of_mem _ member)
    have behind := offset_lt cs starts reached
    have ahead := offset_lt cs reached starts
    have own := ih here.2 later
    rw [List.map_cons]
    unfold tilesFrom
    by_cases passed : s.range.start < cursor
    · rw [if_pos passed, ← ih reached later]
      exact if_pos (behind.mpr passed)
    · rw [if_neg passed]
      refine (if_neg fun less => passed (behind.mp less)).trans ?_
      dsimp only
      by_cases gap : cursor < s.range.start
      · rw [if_pos gap, List.map_cons, List.map_cons, ← own]
        exact if_pos (ahead.mpr gap)
      · rw [if_neg gap, List.map_cons, ← own]
        exact if_neg fun less => gap (ahead.mp less)

theorem spansOf_encoded {comments usings : List Range} (within : ∀ r ∈ comments ++ usings, r.Within cs.length) :
    Octets.spansOf (encode cs) (comments.map (Range.inBytes cs)) (usings.map (Range.inBytes cs))
      = (spansOf cs comments usings).map (Span.inBytes cs) := by
  have merged := @mergeFrom_encoded cs [] comments (fun r member => within r (List.mem_append_left usings member)) nofun
  have directives : (usings.map (Range.inBytes cs)).map (fun r => Span.mk (Octets.extend (encode cs) r) .using)
      = (usings.map fun r => Span.mk (r.extend cs) .using).map (Span.inBytes cs) := by
    rw [List.map_map, List.map_map]
    refine List.map_congr_left fun r member => ?_
    have here := within r (List.mem_append_right comments member)
    simp only [Function.comp_apply]
    rw [extend_encoded (Nat.le_trans here.1 here.2) here.2]
    rfl
  unfold Octets.spansOf
  rw [List.map_nil] at merged
  rw [merged, directives, ← List.map_append]
  refine sorted_encoded fun t member => spansOf_within within t ?_
  exact (sorted_perm _).mem_iff.mpr member

theorem parts_encoded {found : List Range × List Range} (within : ∀ r ∈ found.1 ++ found.2, r.Within cs.length) :
    Octets.parts (found.1.map (Range.inBytes cs), found.2.map (Range.inBytes cs)) (encode cs)
      = .ok ((tiles (fun _ => found) cs).map (part cs)) := by
  have read : ∀ s : Span, Octets.part (encode cs) (s.inBytes cs) = .ok (part cs s) := by
    intro s
    unfold Octets.part
    rw [show (s.inBytes cs).range = s.range.inBytes cs from rfl, slice_encoded, decode_encode]
    rfl
  have cut := tilesFrom_encoded (Nat.zero_le cs.length) (spansOf_within within)
  have zero : offset cs 0 = 0 := rfl
  unfold Octets.parts tiles
  rw [spansOf_encoded within]
  rw [zero] at cut
  rw [cut]
  generalize tilesFrom cs.length 0 (spansOf cs found.1 found.2) = spans
  induction spans with
  | nil => rfl
  | cons s rest ih =>
    rw [List.map_cons, List.mapM_cons, read, ih]
    rfl

/-! ### What a text is cut into -/

-- Spans one after another hold all of a text.
theorem tiled_text {start : Nat} (tiled : Tiled cs.length start spans) :
    (spans.flatMap fun s => textOf cs s.range) = cs.drop start := by
  induction spans generalizing start with
  | nil =>
    have whole : start = cs.length := tiled
    rw [whole, List.drop_length]
    rfl
  | cons s rest ih =>
    obtain ⟨starts, ordered, later⟩ := tiled
    rw [List.flatMap_cons, ih later, drop_textOf ordered (tiled_le later), ← starts]

def Range.Proper (r : Range) (length : Nat) : Prop := r.start < r.stop ∧ r.stop ≤ length

theorem Range.Proper.within {length : Nat} (proper : r.Proper length) : r.Within length :=
  ⟨Nat.le_of_lt proper.1, proper.2⟩

theorem extend_proper (proper : r.Proper cs.length) : (r.extend cs).Proper cs.length := by
  have owns := extend_owns_within proper.within
  have front := owns.front
  have behind := owns.stop_le
  have less := proper.1
  exact ⟨by omega, (owns_within proper.within owns).2⟩

theorem commentSpansFrom_proper {comments : List Range} (proper : ∀ r ∈ comments, r.Proper cs.length)
    (made : ∀ s ∈ done, s.range.Proper cs.length) :
    ∀ s ∈ commentSpansFrom cs done comments, s.range.Proper cs.length := by
  induction comments generalizing done with
  | nil =>
    intro s member
    exact made s (List.mem_reverse.mp member)
  | cons r comments ih =>
    have own := extend_proper (proper r List.mem_cons_self)
    have later : ∀ r ∈ comments, r.Proper cs.length := fun r member => proper r (List.mem_cons_of_mem _ member)
    unfold commentSpansFrom
    cases done with
    | nil =>
      apply ih later
      simpa using own
    | cons last before =>
      have known := made last List.mem_cons_self
      have earlier : ∀ s ∈ before, s.range.Proper cs.length := fun s member => made s (List.mem_cons_of_mem _ member)
      dsimp only
      split
      · rename_i merges
        simp only [Bool.and_eq_true, decide_eq_true_eq] at merges
        apply ih later
        intro s member
        rcases List.mem_cons.mp member with rfl | old
        · have first := known.1
          have second := own.1
          exact ⟨by change last.range.start < (r.extend cs).stop; omega, own.2⟩
        · exact earlier s old
      · apply ih later
        intro s member
        rcases List.mem_cons.mp member with rfl | old
        · exact own
        · exact made s old

theorem spansOf_proper {comments usings : List Range} (proper : ∀ r ∈ comments ++ usings, r.Proper cs.length) :
    ∀ s ∈ spansOf cs comments usings, s.range.Proper cs.length := by
  intro s member
  rcases List.mem_append.mp ((sorted_perm _).mem_iff.mp member) with comment | directive
  · refine commentSpansFrom_proper (fun r found => proper r (List.mem_append_left _ found)) ?_ s comment
    intro t none
    cases none
  · obtain ⟨r, found, rfl⟩ := List.mem_map.mp directive
    exact extend_proper (proper r (List.mem_append_right _ found))

theorem tilesFrom_proper {length cursor : Nat} (proper : ∀ s ∈ spans, s.range.Proper length) :
    ∀ s ∈ tilesFrom length cursor spans, s.range.Proper length := by
  induction spans generalizing cursor with
  | nil =>
    intro s member
    unfold tilesFrom at member
    split at member
    · rw [List.mem_singleton.mp member]
      exact ⟨‹_›, Nat.le_refl _⟩
    · cases member
  | cons t rest ih =>
    have here := proper t List.mem_cons_self
    have later {cursor : Nat} := @ih cursor fun s member => proper s (List.mem_cons_of_mem _ member)
    have own : ∀ s ∈ t :: tilesFrom length t.range.stop rest, s.range.Proper length := by
      intro s member
      rcases List.mem_cons.mp member with rfl | behind
      · exact here
      · exact later s behind
    unfold tilesFrom
    split
    · exact later
    · dsimp only
      split
      · intro s member
        rcases List.mem_cons.mp member with rfl | behind
        · have less := here.1
          exact ⟨‹_›, by change t.range.start ≤ length; have := here.2; omega⟩
        · exact own s behind
      · exact own

theorem textOf_nonempty (proper : r.Proper cs.length) : textOf cs r ≠ [] := by
  intro empty
  have length := congrArg List.length empty
  unfold textOf at length
  rw [List.length_drop, List.length_take_of_le proper.2, List.length_nil] at length
  have less := proper.1
  omega

-- The places that a text is cut at, whatever they are, leave it whole.
theorem ofRanges_lossless {ranges : List Char → List Range × List Range}
    (proper : ∀ r ∈ (ranges (body cs)).1 ++ (ranges (body cs)).2, r.Proper (body cs).length) :
    (Unit.ofRanges cs ranges).fullText = String.ofList cs ∧ ∀ n ∈ (Unit.ofRanges cs ranges).nodes, n.text ≠ "" := by
  have tiled : Tiled cs.length 0 (layout ranges cs) := layout_tiled fun r found => (proper r found).within
  have nodes : (Unit.ofRanges cs ranges).nodes = (layout ranges cs).zipIdx.map (nodeOf cs) := by
    unfold Unit.ofRanges Unit.ofParts
    dsimp only
    rw [List.zipIdx_map, List.map_map]
    rfl
  have placed : ∀ s ∈ layout ranges cs, s.range.Proper cs.length := by
    have cut : ∀ s ∈ tiles ranges (body cs), s.range.Proper (body cs).length :=
      tilesFrom_proper (spansOf_proper proper)
    rcases layout_cases ranges cs with ⟨plain, same⟩ | ⟨marked, same⟩
    · rw [same]
      rwa [plain] at cut
    · have length : cs.length = (body cs).length + 1 := congrArg List.length marked
      rw [same, length]
      intro s member
      rcases List.mem_cons.mp member with rfl | behind
      · exact ⟨Nat.zero_lt_one, Nat.le_add_left _ _⟩
      · obtain ⟨t, found, rfl⟩ := List.mem_map.mp behind
        have known := cut t found
        exact ⟨Nat.add_lt_add_right known.1 1, Nat.add_le_add_right known.2 1⟩
  constructor
  · apply String.toList_inj.mp
    unfold Unit.fullText
    rw [String.toList_join, nodes, String.toList_ofList, List.map_map, List.flatMap_map]
    have texts : ((layout ranges cs).zipIdx.flatMap fun p => (nodeOf cs p).text.toList)
        = (layout ranges cs).flatMap fun s => textOf cs s.range := by
      unfold nodeOf
      simp only [String.toList_ofList]
      rw [← List.flatMap_map (f := Prod.fst) (g := fun s : Span => textOf cs s.range), List.zipIdx_map_fst]
    exact texts.trans (tiled_text tiled)
  · intro n member
    rw [nodes] at member
    obtain ⟨p, found, rfl⟩ := List.mem_map.mp member
    intro empty
    have text := congrArg String.toList empty
    unfold nodeOf at text
    rw [String.toList_ofList] at text
    exact textOf_nonempty (placed p.1 (List.fst_mem_of_mem_zipIdx found)) text

/-! ### What is found among bytes -/

-- A place between two characters.
def OnCharacter (cs : List Char) (i : Nat) : Prop := ∃ k, k ≤ cs.length ∧ i = offset cs k

-- Some bytes that are whole characters.
structure Range.Whole (cs : List Char) (r : Range) : Prop where
  some : r.start < r.stop
  start : OnCharacter cs r.start
  stop : OnCharacter cs r.stop

theorem whole_inBytes (whole : r.Whole cs) : ∃ q : Range, q.Proper cs.length ∧ r = q.inBytes cs := by
  obtain ⟨some, ⟨j, left, start⟩, k, right, stop⟩ := whole
  refine ⟨⟨j, k⟩, ⟨?_, right⟩, ?_⟩
  · rw [start, stop] at some
    exact (offset_lt _ left right).mp some
  · change r = ⟨offset cs j, offset cs k⟩
    rw [← start, ← stop]

theorem all_inBytes {found : List Range} (whole : ∀ r ∈ found, r.Whole cs) :
    ∃ counted : List Range, (∀ q ∈ counted, q.Proper cs.length) ∧ found = counted.map (Range.inBytes cs) := by
  induction found with
  | nil => exact ⟨[], nofun, rfl⟩
  | cons r rest ih =>
    obtain ⟨q, proper, same⟩ := whole_inBytes (whole r List.mem_cons_self)
    obtain ⟨counted, others, rfl⟩ := ih fun r member => whole r (List.mem_cons_of_mem _ member)
    refine ⟨q :: counted, ?_, by rw [same, List.map_cons]⟩
    intro p member
    rcases List.mem_cons.mp member with rfl | old
    · exact proper
    · exact others p old

theorem bytesOf_encode : Octets.bytesOf cs = encode cs := by
  unfold Octets.bytesOf
  rw [toUTF8_encode, String.toList_ofList]

-- The bytes of a file that a grammar is shown.
def shown (text : String) : Octets.Bytes := encode (body text.toList)

-- Cutting among bytes never fails to read a part, and what comes of it is what cutting among characters gives.
theorem parse_counted {g : Octets.Grammar} {found : List Range × List Range}
    (places : Octets.placesIn g (shown text)
      = (found.1.map (Range.inBytes (body text.toList)), found.2.map (Range.inBytes (body text.toList))))
    (within : ∀ r ∈ found.1 ++ found.2, r.Within (body text.toList).length) :
    Octets.parse g text = .ok (.ofRanges text.toList fun _ => found) := by
  have cut := parts_encoded within
  rw [← places] at cut
  unfold shown at cut
  unfold Octets.parse Unit.ofRanges
  split
  · rename_i rest marked
    have behind : body text.toList = rest := by rw [marked]; rfl
    rw [behind, ← bytesOf_encode] at cut
    have parts : (layout (fun _ => found) (byteOrderMark :: rest)).map (part (byteOrderMark :: rest))
        = (.code, String.ofList [byteOrderMark]) :: (tiles (fun _ => found) rest).map (part rest) := by
      change part _ _ :: ((tiles (fun _ => found) rest).map fun s => s.shift 1).map _ = _
      rw [List.map_map]
      rfl
    rw [cut, marked]
    exact congrArg (fun ps => Except.ok (Unit.ofParts ps)) parts.symm
  · rename_i unmarked
    have plain : body text.toList = text.toList ∧ layout (fun _ => found) text.toList = tiles (fun _ => found) text.toList := by
      rcases layout_cases (fun _ => found) text.toList with plain | ⟨marked, _⟩
      · exact plain
      · exact (unmarked _ marked).elim
    rw [plain.1, ← bytesOf_encode] at cut
    rw [cut, plain.2]
    rfl

-- Whatever whole characters a grammar takes for comments and directives, overlapping or not, the text is cut
-- without a fault into parts that are not empty and make it up; counted in characters the places give the same.
theorem parse_lossless {g : Octets.Grammar}
    (whole : ∀ r ∈ (Octets.placesIn g (shown text)).1 ++ (Octets.placesIn g (shown text)).2,
      r.Whole (body text.toList)) :
    ∃ u, Octets.parse g text = .ok u ∧ u.fullText = text ∧ (∀ n ∈ u.nodes, n.text ≠ "") ∧
      ∃ comments usings : List Range,
        Octets.placesIn g (shown text) = (comments.map (Range.inBytes (body text.toList)),
          usings.map (Range.inBytes (body text.toList))) ∧
        u = .ofRanges text.toList fun _ => (comments, usings) := by
  obtain ⟨comments, properComments, countedComments⟩ :=
    all_inBytes fun r member => whole r (List.mem_append_left _ member)
  obtain ⟨usings, properUsings, countedUsings⟩ :=
    all_inBytes fun r member => whole r (List.mem_append_right _ member)
  have places : Octets.placesIn g (shown text) = (comments.map (Range.inBytes (body text.toList)),
      usings.map (Range.inBytes (body text.toList))) := by
    rw [← countedComments, ← countedUsings]
  have proper : ∀ r ∈ comments ++ usings, r.Proper (body text.toList).length := by
    intro r member
    rcases List.mem_append.mp member with comment | directive
    · exact properComments r comment
    · exact properUsings r directive
  obtain ⟨complete, some⟩ := @ofRanges_lossless _ (fun _ => (comments, usings)) proper
  refine ⟨_, @parse_counted _ _ (comments, usings) places fun r member => (proper r member).within, ?_, some,
    comments, usings, places, rfl⟩
  rw [complete, String.ofList_toList]

/-! ### A text with places that overlap -/

def overlappedText : String := "\uFEFF/// é\r\nusing Ü;\n"

-- The comment is found twice, and within the directive there is another one.
def overlapping : Octets.Grammar := fun bytes =>
  .node .other ⟨0, bytes.length⟩ [.node .comment ⟨0, 6⟩ [], .node .comment ⟨0, 6⟩ [],
    .node .other ⟨8, 17⟩ [.node .directive ⟨14, 17⟩ [], .node .directive ⟨8, 17⟩ []]]

theorem parse_lossless_overlapping :
    (∀ r ∈ (Octets.placesIn overlapping (shown overlappedText)).1 ++ (Octets.placesIn overlapping (shown overlappedText)).2,
      r.Whole (body overlappedText.toList)) ∧
    ∃ u, Octets.parse overlapping overlappedText = .ok u ∧ u.fullText = overlappedText ∧ (∀ n ∈ u.nodes, n.text ≠ "") ∧
      ∃ comments usings : List Range,
        Octets.placesIn overlapping (shown overlappedText) = (comments.map (Range.inBytes (body overlappedText.toList)),
          usings.map (Range.inBytes (body overlappedText.toList))) ∧
        u = .ofRanges overlappedText.toList fun _ => (comments, usings) := by
  have whole : ∀ r ∈ (Octets.placesIn overlapping (shown overlappedText)).1
      ++ (Octets.placesIn overlapping (shown overlappedText)).2, r.Whole (body overlappedText.toList) := by
    have found : (Octets.placesIn overlapping (shown overlappedText)).1
        ++ (Octets.placesIn overlapping (shown overlappedText)).2 = [⟨0, 6⟩, ⟨0, 6⟩, ⟨14, 17⟩, ⟨8, 17⟩] := by
      decide
    have comment : Range.Whole (body overlappedText.toList) ⟨0, 6⟩ :=
      ⟨by decide, ⟨0, by decide, by decide⟩, ⟨5, by decide, by decide⟩⟩
    have directive : Range.Whole (body overlappedText.toList) ⟨8, 17⟩ :=
      ⟨by decide, ⟨7, by decide, by decide⟩, ⟨15, by decide, by decide⟩⟩
    have inner : Range.Whole (body overlappedText.toList) ⟨14, 17⟩ :=
      ⟨by decide, ⟨13, by decide, by decide⟩, ⟨15, by decide, by decide⟩⟩
    rw [found]
    simp only [List.forall_mem_cons, List.not_mem_nil, false_implies, implies_true, and_true]
    exact ⟨comment, comment, inner, directive⟩
  exact ⟨whole, parse_lossless whole⟩

end InlineProject.Source
