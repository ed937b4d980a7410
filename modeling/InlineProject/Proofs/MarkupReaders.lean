import Mathlib
import InlineProject.Text.Lines
import InlineProject.Xml.Lexeme
/-!
What the readers of the small parts of a document answer. The text behind what was read is an end of the
text that was given, so it is made of allowed characters where the whole text is; and so is what was read.
-/

namespace InlineProject.Xml

variable {cs rest text stop before : List Char} {c quote : Char} {start : String}

/-! ### Characters -/

def Allowed (cs : List Char) : Prop := ∀ c ∈ cs, isAllowed c = true

instance : Decidable (Allowed cs) := decidable_of_iff (cs.all isAllowed = true) List.all_eq_true

theorem Allowed.nil : Allowed [] := fun _ member => absurd member List.not_mem_nil

theorem Allowed.cons (head : isAllowed c = true) (tail : Allowed cs) : Allowed (c :: cs) := by
  intro x member
  rcases List.mem_cons.mp member with rfl | inside
  · exact head
  · exact tail x inside

theorem Allowed.append (left : Allowed cs) (right : Allowed rest) : Allowed (cs ++ rest) := by
  intro x member
  rcases List.mem_append.mp member with inside | inside
  · exact left x inside
  · exact right x inside

theorem Allowed.subset (allowed : Allowed cs) (within : rest ⊆ cs) : Allowed rest :=
  fun x member => allowed x (within member)

theorem Allowed.suffix (allowed : Allowed cs) (ends : rest <:+ cs) : Allowed rest :=
  allowed.subset ends.subset

theorem allowed_append : Allowed (cs ++ rest) ↔ Allowed cs ∧ Allowed rest :=
  ⟨fun allowed => ⟨allowed.subset (List.subset_append_left _ _),
    allowed.subset (List.subset_append_right _ _)⟩, fun parts => parts.1.append parts.2⟩

theorem lookup_mem {β : Type} {entries : List (String × β)} {key : String} {value : β}
    (found : entries.lookup key = some value) : (key, value) ∈ entries := by
  obtain ⟨front, back, split, _⟩ := List.lookup_eq_some_iff.mp found
  exact split ▸ List.mem_append_right _ List.mem_cons_self

theorem inRanges_bounds {ranges : List (Nat × Nat)} {n low high : Nat}
    (bounds : ∀ r ∈ ranges, low ≤ r.1 ∧ r.2 ≤ high) (inside : inRanges ranges n = true) :
    low ≤ n ∧ n ≤ high := by
  obtain ⟨r, member, between⟩ := List.any_eq_true.mp inside
  simp only [Bool.and_eq_true, decide_eq_true_eq] at between
  have := bounds r member
  omega

theorem startsName_bounds (starts : startsName c = true) : 0x41 ≤ c.toNat ∧ c.toNat ≤ 0xD7A3 := by
  unfold startsName at starts
  dsimp only at starts
  split at starts
  · exact inRanges_bounds (by decide +kernel) starts
  · exact inRanges_bounds (by decide +kernel) starts

theorem continuesName_bounds (continues : continuesName c = true) :
    0x2D ≤ c.toNat ∧ c.toNat ≤ 0xD7A3 := by
  rcases Bool.or_eq_true _ _ ▸ continues with starts | follows
  · have := startsName_bounds starts
    omega
  · exact inRanges_bounds (by decide +kernel) follows

theorem isAllowed_of_bounds (low : 0x20 ≤ c.toNat) (high : c.toNat < 0xFFFE) :
    isAllowed c = true := by
  have first : c.toNat ≠ 0xFFFE := by omega
  have second : c.toNat ≠ 0xFFFF := by omega
  simp [isAllowed, low, first, second]

theorem continuesName_allowed (continues : continuesName c = true) : isAllowed c = true := by
  have := continuesName_bounds continues
  exact isAllowed_of_bounds (by omega) (by omega)

theorem continuesName_of_starts (starts : startsName c = true) : continuesName c = true := by
  rw [continuesName, starts, Bool.true_or]

/-! ### Names -/

-- A name without a colon.
structure Label (s : String) : Prop where
  starts : ∃ c rest, s.toList = c :: rest ∧ startsName c = true
  continues : ∀ c ∈ s.toList, continuesName c = true

def isLabel : List Char → Bool
  | c :: rest => startsName c && rest.all continuesName
  | [] => false

theorem isLabel_exact {s : String} : isLabel s.toList = true ↔ Label s := by
  constructor
  · intro label
    unfold isLabel at label
    split at label
    · rename_i c rest chars
      obtain ⟨starts, continues⟩ := Bool.and_eq_true_iff.mp label
      refine ⟨⟨c, rest, chars, starts⟩, fun x member => ?_⟩
      rw [chars] at member
      rcases List.mem_cons.mp member with rfl | inside
      · exact continuesName_of_starts starts
      · exact List.all_eq_true.mp continues x inside
    · cases label
  · rintro ⟨⟨c, rest, chars, starts⟩, continues⟩
    rw [chars] at continues ⊢
    refine Bool.and_eq_true_iff.mpr ⟨starts, List.all_eq_true.mpr fun x member => ?_⟩
    exact continues x (List.mem_cons_of_mem _ member)

instance {s : String} : Decidable (Label s) := decidable_of_iff _ isLabel_exact

theorem Label.allowed {s : String} (label : Label s) : Allowed s.toList :=
  fun c member => continuesName_allowed (label.continues c member)

theorem Label.ne_empty {s : String} (label : Label s) : s ≠ "" := by
  rintro rfl
  obtain ⟨c, rest, parts, _⟩ := label.starts
  cases parts

structure WrittenName.Proper (n : WrittenName) : Prop where
  label : Label n.label
  mark : ∀ mark, n.mark = some mark → Label mark

/-! ### Readers -/

theorem skipSpaces_suffix : skipSpaces cs <:+ cs := List.dropWhile_suffix _

theorem spaces?_suffix (read : spaces? cs = some rest) : rest <:+ cs := by
  unfold spaces? at read
  split at read
  · split at read
    · cases read
      exact skipSpaces_suffix.trans (List.suffix_cons _ _)
    · cases read
  · cases read

theorem after?_exact : after? start cs = some rest ↔ cs = start.toList ++ rest := by
  unfold after?
  rw [← String.length_toList]
  constructor
  · intro read
    split at read
    · rename_i begins
      obtain ⟨more, rfl⟩ := List.isPrefixOf_iff_prefix.mp begins
      rw [List.drop_left] at read
      rw [Option.some.inj read]
    · cases read
  · rintro rfl
    rw [if_pos (List.isPrefixOf_iff_prefix.mpr (List.prefix_append _ _)), List.drop_left]

theorem after?_suffix (read : after? start cs = some rest) : rest <:+ cs :=
  ⟨_, (after?_exact.mp read).symm⟩

theorem simpleName?_parts {name : String} (read : simpleName? cs = some (name, rest)) :
    Label name ∧ rest <:+ cs := by
  unfold simpleName? at read
  split at read
  · rename_i c more
    split at read
    · rename_i starts
      obtain ⟨rfl, rfl⟩ := Prod.mk.inj (Option.some.inj read)
      refine ⟨⟨⟨c, _, String.toList_ofList, starts⟩, ?_⟩, ?_⟩
      · rw [String.toList_ofList]
        intro x member
        rcases List.mem_cons.mp member with rfl | inside
        · exact continuesName_of_starts starts
        · exact List.mem_takeWhile_imp inside
      · exact (List.drop_suffix _ _).trans (List.suffix_cons _ _)
    · cases read
  · cases read

theorem name?_parts {name : WrittenName} (read : name? cs = some (name, rest)) :
    name.Proper ∧ rest <:+ cs := by
  unfold name? at read
  obtain ⟨⟨first, behind⟩, one, read⟩ := Option.bind_eq_some_iff.mp read
  obtain ⟨label, ends⟩ := simpleName?_parts one
  dsimp only at read
  split at read
  · obtain ⟨⟨second, behind⟩, two, read⟩ := Option.bind_eq_some_iff.mp read
    cases read
    obtain ⟨label', ends'⟩ := simpleName?_parts two
    refine ⟨⟨label', ?_⟩, (ends'.trans (List.suffix_cons _ _)).trans ends⟩
    rintro mark ⟨⟩
    exact label
  · cases read
    exact ⟨⟨label, fun _ none => absurd none (by simp)⟩, ends⟩

theorem until?_parts (read : until? stop cs = some (before, rest)) : cs = before ++ stop ++ rest := by
  induction cs generalizing before with
  | nil => cases read
  | cons c more ih =>
    unfold until? at read
    split at read
    · rename_i begins
      obtain ⟨back, split⟩ := List.isPrefixOf_iff_prefix.mp begins
      rw [← split, List.drop_left] at read
      obtain ⟨rfl, rfl⟩ := Prod.mk.inj (Option.some.inj read)
      rw [← split, List.nil_append]
    · obtain ⟨⟨front, back⟩, found, joined⟩ := Option.map_eq_some_iff.mp read
      obtain ⟨rfl, rfl⟩ := Prod.mk.inj joined
      rw [ih found, List.cons_append, List.cons_append]

theorem until?_suffix (read : until? stop cs = some (before, rest)) : rest <:+ cs :=
  ⟨_, (until?_parts read).symm⟩

theorem until?_allowed (allowed : Allowed cs) (read : until? stop cs = some (before, rest)) :
    Allowed before := by
  rw [until?_parts read, allowed_append, allowed_append] at allowed
  exact allowed.1.1

-- Every hyphen stands before another character, so that two of them can only come behind the text.
def SingleHyphens : List Char → Prop
  | [] => True
  | c :: cs => (c = '-' → ∃ x ∈ cs.head?, x ≠ '-') ∧ SingleHyphens cs

theorem hyphens_exact {x : Char} :
    ['-', '-'].isPrefixOf (c :: x :: rest) = true ↔ c = '-' ∧ x = '-' := by
  constructor
  · intro begins
    obtain ⟨back, split⟩ := List.isPrefixOf_iff_prefix.mp begins
    cases split
    exact ⟨rfl, rfl⟩
  · rintro ⟨rfl, rfl⟩
    rfl

theorem singleHyphens_until? : until? ['-', '-'] cs = some (text, rest) → SingleHyphens text := by
  induction cs generalizing text with
  | nil => exact fun read => nomatch read
  | cons c more ih =>
    intro read
    unfold until? at read
    split at read
    · cases read
      trivial
    · rename_i goes
      obtain ⟨⟨front, back⟩, found, joined⟩ := Option.map_eq_some_iff.mp read
      cases joined
      refine ⟨fun hyphen => ?_, ih found⟩
      rw [until?_parts found] at goes
      cases front with
      | nil => exact absurd (hyphens_exact.mpr ⟨hyphen, rfl⟩) goes
      | cons x front => exact ⟨x, rfl, fun same => goes (hyphens_exact.mpr ⟨hyphen, same⟩)⟩

theorem until?_singleHyphens (single : SingleHyphens text) :
    until? ['-', '-'] (text ++ '-' :: '-' :: rest) = some (text, rest) := by
  induction text with
  | nil => rfl
  | cons c text ih =>
    have goes : ¬['-', '-'].isPrefixOf (c :: (text ++ '-' :: '-' :: rest)) = true := by
      cases text with
      | nil =>
        intro begins
        obtain ⟨x, member, _⟩ := single.1 (hyphens_exact.mp begins).1
        cases member
      | cons x text =>
        intro begins
        obtain ⟨hyphen, same⟩ := hyphens_exact.mp begins
        obtain ⟨y, member, other⟩ := single.1 hyphen
        cases member
        exact other same
    rw [List.cons_append, until?, if_neg goes, ih single.2]
    rfl

theorem comment?_parts (read : comment? cs = some (text, rest)) :
    SingleHyphens text ∧ (Allowed cs → Allowed text) ∧ rest <:+ cs := by
  unfold comment? at read
  obtain ⟨⟨found, behind⟩, ended, read⟩ := Option.bind_eq_some_iff.mp read
  dsimp only at read
  split at read
  · cases read
    exact ⟨singleHyphens_until? ended, fun allowed => until?_allowed allowed ended,
      (List.suffix_cons _ _).trans (until?_suffix ended)⟩
  · cases read

theorem instruction?_suffix (read : instruction? cs = some rest) : rest <:+ cs := by
  unfold instruction? at read
  obtain ⟨⟨target, behind⟩, named, read⟩ := Option.bind_eq_some_iff.mp read
  have ends := (simpleName?_parts named).2
  dsimp only at read
  split at read
  · cases read
  · split at read
    · rename_i closed
      cases read
      exact (after?_suffix closed).trans ends
    · obtain ⟨spaced, apart, read⟩ := Option.bind_eq_some_iff.mp read
      obtain ⟨⟨_, closed⟩, ended, read⟩ := Option.bind_eq_some_iff.mp read
      cases read
      exact ((until?_suffix ended).trans (spaces?_suffix apart)).trans ends

theorem quoted?_parts (read : quoted? cs = some (text, rest)) :
    (Allowed cs → Allowed text) ∧ rest <:+ cs := by
  unfold quoted? at read
  split at read
  · split at read
    · exact ⟨fun allowed => until?_allowed (allowed.suffix (List.suffix_cons _ _)) read,
        (until?_suffix read).trans (List.suffix_cons _ _)⟩
    · cases read
  · cases read

/-! ### References -/

theorem charOf?_allowed {n : Nat} (read : charOf? n = some c) : isAllowed c = true := by
  unfold charOf? at read
  split at read
  · dsimp only at read
    split at read
    · cases read
      assumption
    · cases read
  · cases read

theorem numbered?_parts {base : Nat} {isDigit : Char → Bool}
    (read : numbered? base isDigit cs = some (c, rest)) : isAllowed c = true ∧ rest <:+ cs := by
  unfold numbered? at read
  dsimp only at read
  split at read
  · cases read
  · rename_i behind split _
    split at read
    · cases read
    · obtain ⟨found, valid, joined⟩ := Option.map_eq_some_iff.mp read
      obtain ⟨rfl, rfl⟩ := Prod.mk.inj joined
      have ends : ';' :: behind <:+ cs := split ▸ List.drop_suffix _ _
      exact ⟨charOf?_allowed valid, (List.suffix_cons _ _).trans ends⟩
  · cases read

-- A character that a document may hold, or the name of an entity.
def Reference.Proper : Reference → Prop
  | .char c => isAllowed c = true
  | .entity _ => True

theorem predefined_allowed {name : String} (found : predefined.lookup name = some c) :
    isAllowed c = true := by
  have all : ∀ entry ∈ predefined, isAllowed entry.2 = true := by decide
  exact all (name, c) (lookup_mem found)

theorem reference?_parts {reference : Reference} (read : reference? cs = some (reference, rest)) :
    reference.Proper ∧ rest <:+ cs := by
  unfold reference? at read
  split at read
  · obtain ⟨⟨found, behind⟩, number, joined⟩ := Option.map_eq_some_iff.mp read
    obtain ⟨rfl, rfl⟩ := Prod.mk.inj joined
    obtain ⟨allowed, ends⟩ := numbered?_parts number
    exact ⟨allowed, (ends.trans (List.suffix_cons _ _)).trans (List.suffix_cons _ _)⟩
  · obtain ⟨⟨found, behind⟩, number, joined⟩ := Option.map_eq_some_iff.mp read
    obtain ⟨rfl, rfl⟩ := Prod.mk.inj joined
    obtain ⟨allowed, ends⟩ := numbered?_parts number
    exact ⟨allowed, ends.trans (List.suffix_cons _ _)⟩
  · obtain ⟨⟨name, behind⟩, named, read⟩ := Option.bind_eq_some_iff.mp read
    have ends := (simpleName?_parts named).2
    dsimp only at read
    split at read
    · split at read
      · rename_i found
        cases read
        exact ⟨predefined_allowed found, (List.suffix_cons _ _).trans ends⟩
      · cases read
        exact ⟨trivial, (List.suffix_cons _ _).trans ends⟩
    · cases read

/-! ### Line breaks -/

open Lines

theorem unifyBreaks_cons (other : c ≠ '\r') : unifyBreaks (c :: rest) = c :: unifyBreaks rest := by
  rw [unifyBreaks]
  · exact fun _ same _ => other same
  · exact other

theorem unifyBreaks_quiet (quiet : '\r' ∉ cs) : unifyBreaks (cs ++ rest) = cs ++ unifyBreaks rest := by
  induction cs with
  | nil => rfl
  | cons c cs ih =>
    have other : c ≠ '\r' := fun same => quiet (same ▸ List.mem_cons_self)
    rw [List.cons_append, unifyBreaks_cons other, ih fun member => quiet (List.mem_cons_of_mem _ member)]
    rfl

theorem unifyBreaks_noReturn : '\r' ∉ unifyBreaks cs := by
  induction cs using unifyBreaks.induct with
  | case1 => exact List.not_mem_nil
  | case2 cs ih =>
    rw [unifyBreaks]
    exact List.not_mem_cons_of_ne_of_not_mem (by decide) ih
  | case3 cs alone ih =>
    rw [unifyBreaks]
    · exact List.not_mem_cons_of_ne_of_not_mem (by decide) ih
    · exact alone
  | case4 c cs _ other ih =>
    have other : c ≠ '\r' := other
    rw [unifyBreaks_cons other]
    exact List.not_mem_cons_of_ne_of_not_mem other.symm ih

theorem unifyBreaks_self (quiet : '\r' ∉ cs) : unifyBreaks cs = cs := by
  have whole : unifyBreaks (cs ++ []) = cs ++ unifyBreaks [] := unifyBreaks_quiet quiet
  rwa [List.append_nil, unifyBreaks, List.append_nil] at whole

theorem unifyBreaks_allowed (allowed : Allowed cs) : Allowed (unifyBreaks cs) := by
  induction cs using unifyBreaks.induct with
  | case1 => exact .nil
  | case2 rest ih =>
    rw [unifyBreaks]
    exact .cons (by decide) (ih (allowed.suffix (List.suffix_append ['\r', '\n'] rest)))
  | case3 rest _ ih =>
    rw [unifyBreaks]
    · exact .cons (by decide) (ih (allowed.suffix (List.suffix_cons _ _)))
    · assumption
  | case4 c rest _ _ ih =>
    rw [unifyBreaks]
    · exact .cons (allowed c List.mem_cons_self) (ih (allowed.suffix (List.suffix_cons _ _)))
    · assumption
    · assumption

theorem unifyBreaks_head (head : c ∈ cs.head?) :
    c ∈ (unifyBreaks cs).head? ∨ '\n' ∈ (unifyBreaks cs).head? := by
  unfold unifyBreaks
  split
  · cases head
  · exact .inr rfl
  · exact .inr rfl
  · exact .inl head

theorem singleHyphens_unified (single : SingleHyphens cs) : SingleHyphens (unifyBreaks cs) := by
  induction cs using unifyBreaks.induct with
  | case1 => trivial
  | case2 cs ih => 
    rw [unifyBreaks]
    exact ⟨fun impossible => absurd impossible (by decide), ih single.2.2⟩
  | case3 cs alone ih =>
    rw [unifyBreaks]
    · exact ⟨fun impossible => absurd impossible (by decide), ih single.2⟩
    · exact alone
  | case4 c cs _ other ih =>
    have other : c ≠ '\r' := other
    rw [unifyBreaks_cons other]
    refine ⟨fun hyphen => ?_, ih single.2⟩
    obtain ⟨x, head, unlike⟩ := single.1 hyphen
    rcases unifyBreaks_head head with same | feed
    · exact ⟨x, same, unlike⟩
    · exact ⟨'\n', feed, by decide⟩

/-! ### The declaration -/

theorem pseudoAttribute?_suffix {name : String} (read : pseudoAttribute? name cs = some (text, rest)) :
    rest <:+ cs := by
  unfold pseudoAttribute? at read
  obtain ⟨_, apart, read⟩ := Option.bind_eq_some_iff.mp read
  obtain ⟨_, named, read⟩ := Option.bind_eq_some_iff.mp read
  obtain ⟨_, equal, read⟩ := Option.bind_eq_some_iff.mp read
  obtain ⟨⟨value, behind⟩, quoted, read⟩ := Option.bind_eq_some_iff.mp read
  dsimp only at read
  split at read
  · cases read
    calc rest <:+ _ := (quoted?_parts quoted).2
      _ <:+ _ := skipSpaces_suffix
      _ <:+ _ := after?_suffix equal
      _ <:+ _ := skipSpaces_suffix
      _ <:+ _ := after?_suffix named
      _ <:+ cs := spaces?_suffix apart
  · cases read

theorem optionalPart_suffix {r : List Char → Option (List Char × List Char)}
    (ends : ∀ value rest, r cs = some (value, rest) → rest <:+ cs) : (optionalPart r cs).2 <:+ cs := by
  unfold optionalPart
  split
  · rename_i value rest read
    exact ends value rest read
  · exact List.suffix_rfl

theorem declaration?_suffix {encoding : Option String}
    (read : declaration? cs = some (encoding, rest)) : rest <:+ cs := by
  unfold declaration? at read
  obtain ⟨⟨_, versioned⟩, version, read⟩ := Option.bind_eq_some_iff.mp read
  dsimp only at read
  obtain ⟨closed, ended, read⟩ := Option.bind_eq_some_iff.mp read
  obtain ⟨_, read⟩ := Option.ite_none_right_eq_some.mp read
  obtain rfl := (Prod.mk.inj (Option.some.inj read)).2
  calc closed <:+ _ := after?_suffix ended
    _ <:+ _ := skipSpaces_suffix
    _ <:+ _ := optionalPart_suffix fun _ _ => pseudoAttribute?_suffix
    _ <:+ _ := optionalPart_suffix fun _ _ => pseudoAttribute?_suffix
    _ <:+ cs := pseudoAttribute?_suffix version

end InlineProject.Xml
