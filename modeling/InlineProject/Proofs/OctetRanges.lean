import InlineProject.Proofs.SourceBytes
import InlineProject.Source.Octets
/-!
Ranges of characters and ranges of bytes. A blank or a line break is one byte in UTF-8 and no byte of
any other character, so looking for lines among bytes finds what looking among characters finds.
-/

namespace InlineProject.Source

variable {cs front back : List Char} {c : Char} {r : Range} {j k : Nat}

/-! ### The bytes of a character -/

-- One byte for a character of ASCII; all bytes of any other one are beyond ASCII.
theorem utf8EncodeChar_cases (c : Char) :
    (c.toNat < 0x80 ∧ String.utf8EncodeChar c = [UInt8.ofNat c.toNat]) ∨
    (0x80 ≤ c.toNat ∧ String.utf8EncodeChar c ≠ [] ∧
      ∀ b ∈ String.utf8EncodeChar c, 0x80 ≤ b.toNat) := by
  have value : c.val.toNat = c.toNat := rfl
  unfold String.utf8EncodeChar
  simp only [value]
  split
  · left
    simp only [and_true]
    omega
  · right
    refine ⟨by omega, ?_, ?_⟩
    · split
      · simp
      · split <;> simp
    · intro b member
      split at member
      · simp only [List.mem_cons, List.not_mem_nil, or_false] at member
        rcases member with rfl | rfl <;> simp <;> omega
      · split at member
        · simp only [List.mem_cons, List.not_mem_nil, or_false] at member
          rcases member with rfl | rfl | rfl <;> simp <;> omega
        · simp only [List.mem_cons, List.not_mem_nil, or_false] at member
          rcases member with rfl | rfl | rfl | rfl <;> simp <;> omega

-- What tells some characters of ASCII from all others also tells their bytes from all others.
structure Mirrors (onBytes : UInt8 → Bool) (onChars : Char → Bool) : Prop where
  ascii : ∀ c, c.toNat < 0x80 → onBytes (UInt8.ofNat c.toNat) = onChars c
  charBeyond : ∀ c, 0x80 ≤ c.toNat → onChars c = false
  byteBeyond : ∀ b : UInt8, 0x80 ≤ b.toNat → onBytes b = false

-- A test for one character of ASCII.
theorem mirrors_single {a : Char} (ascii : a.toNat < 0x80) :
    Mirrors (· == UInt8.ofNat a.toNat) (· == a) := by
  have numbered {m n : Nat} (small : m < 0x80) (little : n < 0x80)
      (same : UInt8.ofNat m = UInt8.ofNat n) : m = n := by
    have values := congrArg UInt8.toNat same
    simp only [UInt8.toNat_ofNat'] at values
    omega
  constructor
  · intro c small
    rw [Bool.eq_iff_iff, beq_iff_eq, beq_iff_eq]
    constructor
    · intro same
      exact Char.toNat_inj.mp (numbered small ascii same)
    · rintro rfl
      rfl
  · intro c large
    apply beq_eq_false_iff_ne.mpr
    rintro rfl
    omega
  · intro b large
    apply beq_eq_false_iff_ne.mpr
    rintro rfl
    simp only [UInt8.toNat_ofNat'] at large
    omega

theorem Mirrors.or {p p' : UInt8 → Bool} {q q' : Char → Bool} (first : Mirrors p q)
    (second : Mirrors p' q') : Mirrors (fun b => p b || p' b) (fun c => q c || q' c) := by
  constructor
  · intro c small
    rw [first.ascii c small, second.ascii c small]
  · intro c large
    rw [first.charBeyond c large, second.charBeyond c large]
    rfl
  · intro b large
    rw [first.byteBeyond b large, second.byteBeyond b large]
    rfl

theorem mirrors_indent : Mirrors Octets.isIndent isIndent :=
  (mirrors_single (a := ' ') (by decide)).or (mirrors_single (a := '\t') (by decide))

theorem mirrors_feed : Mirrors (· == 0x0A) (· == '\n') := mirrors_single (a := '\n') (by decide)

theorem mirrors_return : Mirrors (· == 0x0D) (· == '\r') := mirrors_single (a := '\r') (by decide)

theorem Mirrors.single {onBytes : UInt8 → Bool} {onChars : Char → Bool} (mirrors : Mirrors onBytes onChars)
    (meant : onChars c = true) : ∃ b, String.utf8EncodeChar c = [b] ∧ onBytes b = true := by
  rcases utf8EncodeChar_cases c with ⟨small, single⟩ | ⟨large, _⟩
  · exact ⟨_, single, (mirrors.ascii c small).trans meant⟩
  · rw [mirrors.charBeyond c large] at meant
    cases meant

/-! ### Runs from either end -/

-- The bytes of each character, in some order: forwards, or backwards to read from the end of a text.
def Reorders (code : Char → List UInt8) : Prop := ∀ c, (code c).Perm (String.utf8EncodeChar c)

theorem reorders_forwards : Reorders String.utf8EncodeChar := fun _ => .refl _

theorem reorders_backwards : Reorders fun c => (String.utf8EncodeChar c).reverse :=
  fun _ => List.reverse_perm _

theorem encode_reverse : (encode cs).reverse = cs.reverse.flatMap fun c => (String.utf8EncodeChar c).reverse := by
  unfold encode
  rw [List.reverse_flatMap]
  rfl

section Runs

variable {onBytes : UInt8 → Bool} {onChars : Char → Bool} {code : Char → List UInt8}

theorem Reorders.single (reorders : Reorders code) (mirrors : Mirrors onBytes onChars)
    (meant : onChars c = true) : ∃ b, code c = [b] ∧ onBytes b = true := by
  obtain ⟨b, single, good⟩ := mirrors.single meant
  have same := reorders c
  rw [single] at same
  exact ⟨b, List.perm_singleton.mp same, good⟩

-- A character that is not meant begins and ends with bytes that are not meant.
theorem Reorders.other (reorders : Reorders code) (mirrors : Mirrors onBytes onChars)
    (unmeant : onChars c = false) : ∃ b more, code c = b :: more ∧ onBytes b = false := by
  have same := reorders c
  rcases utf8EncodeChar_cases c with ⟨small, single⟩ | ⟨_, some, large⟩
  · rw [single] at same
    exact ⟨_, [], List.perm_singleton.mp same, (mirrors.ascii c small).trans unmeant⟩
  · cases bytes : code c with
    | nil =>
      rw [bytes] at same
      exact absurd same.nil_eq.symm some
    | cons b more =>
      rw [bytes] at same
      exact ⟨b, more, rfl, mirrors.byteBeyond b (large b (same.mem_iff.mp List.mem_cons_self))⟩

theorem runs_encoded (cs : List Char) (reorders : Reorders code) (mirrors : Mirrors onBytes onChars) :
    ((cs.flatMap code).takeWhile onBytes).length = (cs.takeWhile onChars).length ∧
      (cs.flatMap code).dropWhile onBytes = (cs.dropWhile onChars).flatMap code := by
  induction cs with
  | nil => exact ⟨rfl, rfl⟩
  | cons c rest ih =>
    cases meant : onChars c with
    | true =>
      obtain ⟨b, single, good⟩ := reorders.single mirrors meant
      simp [single, good, meant, ih]
    | false =>
      obtain ⟨b, more, bytes, bad⟩ := reorders.other mirrors meant
      simp [bytes, bad, meant]

theorem length_encode_meant (mirrors : Mirrors onBytes onChars) (meant : ∀ c ∈ cs, onChars c = true) :
    (encode cs).length = cs.length := by
  induction cs with
  | nil => rfl
  | cons c rest ih =>
    obtain ⟨b, single, _⟩ := mirrors.single (meant c List.mem_cons_self)
    have later := ih fun d member => meant d (List.mem_cons_of_mem _ member)
    simp [encode, single] at later ⊢
    exact later

end Runs

/-! ### Places in a text and in its bytes -/

-- Where the bytes of a character begin.
def offset (cs : List Char) (k : Nat) : Nat := (encode (cs.take k)).length

theorem offset_add {n : Nat} : offset cs (k + n) = offset cs k + (encode ((cs.drop k).take n)).length := by
  unfold offset
  rw [List.take_add, encode_append, List.length_append]

theorem encode_ne_nil (some : cs ≠ []) : encode cs ≠ [] := by
  cases cs with
  | nil => exact absurd rfl some
  | cons c rest =>
    obtain ⟨_, single⟩ | ⟨_, more, _⟩ := utf8EncodeChar_cases c
    · simp [encode, single]
    · simp [encode, more]

theorem offset_strict (before : j < k) (within : k ≤ cs.length) : offset cs j < offset cs k := by
  obtain ⟨n, rfl⟩ := Nat.exists_eq_add_of_lt before
  rw [Nat.add_assoc, offset_add]
  have some : (cs.drop j).take (n + 1) ≠ [] := by
    simp
    omega
  have long := List.length_pos_iff.mpr (encode_ne_nil some)
  omega

theorem offset_lt (cs : List Char) (left : j ≤ cs.length) (right : k ≤ cs.length) : offset cs j < offset cs k ↔ j < k := by
  constructor
  · intro less
    apply Nat.lt_of_not_le
    intro reached
    rcases Nat.eq_or_lt_of_le reached with same | later
    · rw [same] at less
      exact absurd less (Nat.lt_irrefl _)
    · have := offset_strict later left
      omega
  · intro before
    exact offset_strict before right

theorem take_offset : (encode cs).take (offset cs k) = encode (cs.take k) := by
  have parts : encode cs = encode (cs.take k) ++ encode (cs.drop k) := by
    rw [← encode_append, List.take_append_drop]
  unfold offset
  rw [parts]
  exact List.take_left

theorem drop_offset : (encode cs).drop (offset cs k) = encode (cs.drop k) := by
  have parts : encode cs = encode (cs.take k) ++ encode (cs.drop k) := by
    rw [← encode_append, List.take_append_drop]
  unfold offset
  rw [parts]
  exact List.drop_left

theorem slice_encoded : Octets.slice (encode cs) (r.inBytes cs) = encode (textOf cs r) := by
  unfold Octets.slice textOf
  change ((encode cs).take (offset cs r.stop)).drop (offset cs r.start) = _
  rw [take_offset]
  rcases Nat.le_total r.start r.stop with ordered | reversed
  · have same : offset cs r.start = offset (cs.take r.stop) r.start := by
      unfold offset
      rw [List.take_take, Nat.min_eq_left ordered]
    rw [same, drop_offset]
  · have long : (encode (cs.take r.stop)).length ≤ offset cs r.start := by
      obtain ⟨n, rest⟩ := Nat.exists_eq_add_of_le reversed
      rw [rest, offset_add]
      exact Nat.le_add_right _ _
    have none : (cs.take r.stop).drop r.start = [] :=
      List.drop_eq_nil_of_le (Nat.le_trans (List.length_take_le _ _) reversed)
    rw [List.drop_eq_nil_of_le long, none]
    rfl

/-! ### Lines -/

-- How long the line break is that a text begins with.
def breakLength? : List Char → Option Nat
  | '\r' :: '\n' :: _ => some 2
  | '\n' :: _ => some 1
  | [] => some 0
  | _ => none

theorem extend_breaks : r.extend cs =
    let before := (cs.take r.start).reverse
    let indent := (before.takeWhile isIndent).length
    let behind := cs.drop r.stop
    let stop := r.stop + (behind.takeWhile isIndent).length
    if startsLine (before.drop indent) then
      match breakLength? (behind.dropWhile isIndent) with
      | some length => ⟨r.start - indent, stop + length⟩
      | none => ⟨r.start, stop⟩
    else ⟨r.start, stop⟩ := by
  unfold Range.extend
  dsimp only
  split
  · generalize (cs.drop r.stop).dropWhile isIndent = rest
    fun_cases breakLength? rest with
    | case4 other noReturn noFeed some =>
      split
      · exact (noReturn _ rfl).elim
      · exact (noFeed _ rfl).elim
      · exact (some rfl).elim
      · rfl
    | _ => rfl
  · rfl

theorem breakLength?_encode : Octets.breakLength? (encode cs) = breakLength? cs := by
  have feed : String.utf8EncodeChar '\n' = [0x0A] := by decide
  have return_ : String.utf8EncodeChar '\r' = [0x0D] := by decide
  -- A byte that is a line break of its own is one in the text.
  have starts {b : UInt8} {a : Char} (mirrors : Mirrors (· == b) (· == a)) {cs : List Char} {rest : List UInt8}
      (bytes : encode cs = b :: rest) : ∃ more, cs = a :: more ∧ encode more = rest := by
    cases cs with
    | nil => cases bytes
    | cons c more =>
      cases same : c == a with
      | true =>
        obtain ⟨d, single, _⟩ := mirrors.single same
        simp only [encode, List.flatMap_cons, single, List.singleton_append, List.cons.injEq] at bytes
        exact ⟨more, by rw [eq_of_beq same], bytes.2⟩
      | false =>
        obtain ⟨d, others, coded, apart⟩ := reorders_forwards.other mirrors same
        simp only [encode, List.flatMap_cons, coded, List.cons_append, List.cons.injEq] at bytes
        rw [bytes.1] at apart
        simp at apart
  fun_cases breakLength? cs with
  | case1 rest => simp [encode, feed, return_, Octets.breakLength?]
  | case2 rest => simp [encode, feed, Octets.breakLength?]
  | case3 => rfl
  | case4 other noReturn noFeed some =>
    unfold Octets.breakLength?
    split
    · rename_i bytes
      obtain ⟨more, rfl, later⟩ := starts mirrors_return bytes
      obtain ⟨last, rfl, _⟩ := starts mirrors_feed later
      exact (noReturn last rfl).elim
    · rename_i bytes
      obtain ⟨more, rfl, _⟩ := starts mirrors_feed bytes
      exact (noFeed more rfl).elim
    · rename_i bytes
      exact absurd bytes (encode_ne_nil some)
    · rfl

theorem startsLine_encoded {code : Char → List UInt8} (reorders : Reorders code) :
    Octets.startsLine (cs.flatMap code) = startsLine cs := by
  cases cs with
  | nil => rfl
  | cons c rest =>
    cases feed : c == '\n' with
    | true =>
      obtain ⟨b, single, good⟩ := reorders.single mirrors_feed feed
      simp only [List.flatMap_cons, single, List.singleton_append]
      exact good.trans feed.symm
    | false =>
      obtain ⟨b, more, coded, bad⟩ := reorders.other mirrors_feed feed
      simp only [List.flatMap_cons, coded, List.cons_append]
      exact bad.trans feed.symm

-- Behind a place the bytes of some characters of ASCII are as many as these.
theorem offset_ascii {onBytes : UInt8 → Bool} {onChars : Char → Bool} (mirrors : Mirrors onBytes onChars) {n : Nat}
    (meant : ∀ c ∈ (cs.drop k).take n, onChars c = true) (long : n ≤ (cs.drop k).length) :
    offset cs (k + n) = offset cs k + n := by
  rw [offset_add, length_encode_meant mirrors meant, List.length_take_of_le long]

theorem mirrors_break : Mirrors (fun b => b == 0x0A || b == 0x0D) (fun c => c == '\n' || c == '\r') :=
  mirrors_feed.or mirrors_return

theorem break_text {n : Nat} (breaks : breakLength? cs = some n) :
    n ≤ cs.length ∧ ∀ c ∈ cs.take n, (c == '\n' || c == '\r') = true := by
  fun_cases breakLength? cs <;> simp_all [breakLength?] <;> subst breaks <;> simp

-- The indentation before a place and whether a line starts with it.
theorem before_encoded (front : List Char) : ((encode front).reverse.takeWhile Octets.isIndent).length = (front.reverse.takeWhile isIndent).length ∧
    Octets.startsLine ((encode front).reverse.drop (front.reverse.takeWhile isIndent).length)
      = startsLine (front.reverse.drop (front.reverse.takeWhile isIndent).length) := by
  obtain ⟨indents, beyond⟩ := runs_encoded front.reverse reorders_backwards mirrors_indent
  have left := dropWhile_eq_drop (p := Octets.isIndent) (encode front).reverse
  have right := dropWhile_eq_drop (p := isIndent) front.reverse
  rw [← encode_reverse] at indents beyond
  rw [beyond, indents] at left
  rw [← left, ← right, startsLine_encoded reorders_backwards]
  exact ⟨indents, rfl⟩

-- The blanks behind a place and the line break behind these.
theorem behind_encoded (back : List Char) : ((encode back).takeWhile Octets.isIndent).length = (back.takeWhile isIndent).length ∧
    Octets.breakLength? ((encode back).dropWhile Octets.isIndent) = breakLength? (back.dropWhile isIndent) := by
  obtain ⟨blanks, after⟩ := runs_encoded back reorders_forwards mirrors_indent
  refine ⟨blanks, ?_⟩
  rw [← breakLength?_encode]
  exact congrArg Octets.breakLength? after

-- What a range owns is the same, whether it is looked for among characters or among bytes.
theorem extend_encoded (start : r.start ≤ cs.length) (stop : r.stop ≤ cs.length) :
    Octets.extend (encode cs) (r.inBytes cs) = (r.extend cs).inBytes cs := by
  have starts : (r.inBytes cs).start = offset cs r.start := rfl
  have stops : (r.inBytes cs).stop = offset cs r.stop := rfl
  obtain ⟨indents, opens⟩ := before_encoded (cs.take r.start)
  obtain ⟨blanks, breaks⟩ := behind_encoded (cs.drop r.stop)
  have indentation : offset cs r.start - indentBefore cs r = offset cs (r.start - indentBefore cs r) := by
    have back := indentBefore_le start
    have run : Blanks cs (r.start - indentBefore cs r) (r.start - indentBefore cs r + indentBefore cs r) := by
      rw [Nat.sub_add_cancel back]
      exact blanks_before start
    have same := offset_ascii mirrors_indent (blanks_text run) (by rw [List.length_drop]; omega)
    rw [Nat.sub_add_cancel back] at same
    omega
  have trailing : offset cs r.stop + blanksBehind cs r = offset cs (r.stop + blanksBehind cs r) := by
    have reaches := blanksBehind_le stop
    exact (offset_ascii mirrors_indent (blanks_text blanks_behind) (by rw [List.length_drop]; omega)).symm
  have rest : (cs.drop r.stop).dropWhile isIndent = cs.drop (r.stop + blanksBehind cs r) := by
    rw [dropWhile_eq_drop, List.drop_drop]
    rfl
  unfold indentBefore at indentation
  unfold blanksBehind at trailing rest
  rw [extend_breaks]
  unfold Octets.extend
  dsimp only
  rw [starts, stops, take_offset, drop_offset, indents, opens, blanks, breaks, indentation, trailing]
  split
  · cases length : breakLength? ((cs.drop r.stop).dropWhile isIndent) with
    | none => rfl
    | some n =>
      rw [rest] at length
      obtain ⟨long, text⟩ := break_text length
      have further := offset_ascii mirrors_break text long
      dsimp only
      rw [← further]
      rfl
  · rfl

end InlineProject.Source
