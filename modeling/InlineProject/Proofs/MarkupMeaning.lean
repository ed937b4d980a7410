import Mathlib
import InlineProject.Proofs.RegisteredDescriptor
/-!
What the canonical form of a project says. Reading it again gives the indented tree, with its line breaks
unified and every bare element in the namespace of the root; so it says the same as the tree exactly where no
element is bare below a root with a namespace, no text holds a carriage return, and the namespace of the root
is not that of the language itself.
-/

namespace InlineProject.Xml

open Lines

variable {n m l : Node} {default : Option String} {keep : Comments} {uri s t u blank : String} {level : Nat}
  {nodes others more : List Node} {cs : List Char} {beside : Bool}

/-! ### Trees that say the same -/

-- Beside a child one blank text is as good as another.
def sameSlot (beside : Bool) (s t : String) : Bool :=
  s = t || (beside && isBlankString s && isBlankString t)

theorem sameSlot_exact : sameSlot beside s t = true ↔
    s = t ∨ beside = true ∧ isBlankString s = true ∧ isBlankString t = true := by
  simp [sameSlot, and_assoc]

@[simp] theorem sameSlot_refl : sameSlot beside s s = true := by simp [sameSlot]

theorem sameSlot_symm (same : sameSlot beside s t = true) : sameSlot beside t s = true := by
  rw [sameSlot_exact] at same ⊢
  rcases same with rfl | ⟨by_, one, other⟩
  · exact .inl rfl
  · exact .inr ⟨by_, other, one⟩

theorem sameSlot_trans (first : sameSlot beside s t = true) (second : sameSlot beside t u = true) :
    sameSlot beside s u = true := by
  rw [sameSlot_exact] at *
  rcases first with rfl | ⟨by_, one, _⟩
  · exact second
  · rcases second with rfl | ⟨_, _, other⟩
    · exact .inr ⟨by_, one, ‹_›⟩
    · exact .inr ⟨by_, one, other⟩

-- The text of an element stands beside a child if there is one, and so does the tail of every child. A comment
-- is a child as an element is.
mutual
def Node.alike : Node → Node → Bool
  | .comment text tail, .comment text' tail' => text = text' && sameSlot true tail tail'
  | .element name attributes text children tail, .element name' attributes' text' children' tail' =>
      name = name' && attributes = attributes' && sameSlot (!children.isEmpty) text text'
        && allAlike children children' && sameSlot true tail tail'
  | _, _ => false

def allAlike : List Node → List Node → Bool
  | [], [] => true
  | n :: rest, m :: rest' => n.alike m && allAlike rest rest'
  | _, _ => false
end

theorem allAlike_isEmpty (same : allAlike nodes others = true) : nodes.isEmpty = others.isEmpty := by
  cases nodes <;> cases others <;> simp [allAlike] at same ⊢

mutual
theorem Node.alike_refl : (n : Node) → n.alike n = true
  | .comment _ _ => by simp [Node.alike]
  | .element _ _ _ children _ => by simp [Node.alike, allAlike_refl children]

theorem allAlike_refl : (nodes : List Node) → allAlike nodes nodes = true
  | [] => rfl
  | n :: rest => by simp [allAlike, n.alike_refl, allAlike_refl rest]
end

mutual
theorem Node.alike_symm : (n m : Node) → n.alike m = true → m.alike n = true
  | .comment _ _, .comment _ _, same => by
    simp only [Node.alike, Bool.and_eq_true, decide_eq_true_eq] at same ⊢
    exact ⟨same.1.symm, sameSlot_symm same.2⟩
  | .element _ _ _ children _, .element _ _ _ children' _, same => by
    simp only [Node.alike, Bool.and_eq_true, decide_eq_true_eq] at same ⊢
    obtain ⟨⟨⟨⟨named, given⟩, inside⟩, below⟩, behind⟩ := same
    rw [← allAlike_isEmpty below]
    exact ⟨⟨⟨⟨named.symm, given.symm⟩, sameSlot_symm inside⟩, allAlike_symm children children' below⟩,
      sameSlot_symm behind⟩
  | .comment _ _, .element _ _ _ _ _, same => by simp [Node.alike] at same
  | .element _ _ _ _ _, .comment _ _, same => by simp [Node.alike] at same

theorem allAlike_symm : (nodes others : List Node) → allAlike nodes others = true →
    allAlike others nodes = true
  | [], [], _ => rfl
  | n :: rest, m :: rest', same => by
    simp only [allAlike, Bool.and_eq_true] at same ⊢
    exact ⟨n.alike_symm m same.1, allAlike_symm rest rest' same.2⟩
  | [], _ :: _, same => by simp [allAlike] at same
  | _ :: _, [], same => by simp [allAlike] at same
end

mutual
theorem Node.alike_trans : (n m l : Node) → n.alike m = true → m.alike l = true → n.alike l = true
  | .comment _ _, .comment _ _, .comment _ _, first, second => by
    simp only [Node.alike, Bool.and_eq_true, decide_eq_true_eq] at first second ⊢
    exact ⟨first.1.trans second.1, sameSlot_trans first.2 second.2⟩
  | .element _ _ _ children _, .element _ _ _ children' _, .element _ _ _ children'' _, first, second => by
    simp only [Node.alike, Bool.and_eq_true, decide_eq_true_eq] at first second ⊢
    obtain ⟨⟨⟨⟨named, given⟩, inside⟩, below⟩, behind⟩ := first
    obtain ⟨⟨⟨⟨named', given'⟩, inside'⟩, below'⟩, behind'⟩ := second
    rw [← allAlike_isEmpty below] at inside'
    exact ⟨⟨⟨⟨named.trans named', given.trans given'⟩, sameSlot_trans inside inside'⟩,
      allAlike_trans children children' children'' below below'⟩, sameSlot_trans behind behind'⟩
  | .comment _ _, .element _ _ _ _ _, _, first, _ => by simp [Node.alike] at first
  | .element _ _ _ _ _, .comment _ _, _, first, _ => by simp [Node.alike] at first
  | .comment _ _, .comment _ _, .element _ _ _ _ _, _, second => by simp [Node.alike] at second
  | .element _ _ _ _ _, .element _ _ _ _ _, .comment _ _, _, second => by simp [Node.alike] at second

theorem allAlike_trans : (nodes others more : List Node) → allAlike nodes others = true →
    allAlike others more = true → allAlike nodes more = true
  | [], [], [], _, _ => rfl
  | n :: rest, m :: rest', l :: rest'', first, second => by
    simp only [allAlike, Bool.and_eq_true] at first second ⊢
    exact ⟨n.alike_trans m l first.1 second.1, allAlike_trans rest rest' rest'' first.2 second.2⟩
  | [], _ :: _, _, first, _ => by simp [allAlike] at first
  | _ :: _, [], _, first, _ => by simp [allAlike] at first
  | [], [], _ :: _, _, second => by simp [allAlike] at second
  | _ :: _, _ :: _, [], _, second => by simp [allAlike] at second
end

theorem alike_withTail (same : n.alike m = true) (behind : sameSlot true n.tail t = true) :
    n.alike (m.withTail t) = true := by
  cases n <;> cases m <;> simp_all [Node.alike, Node.withTail, Node.tail]

theorem allAlike_map {f : Node → Node} :
    allAlike nodes (nodes.map f) = true ↔ ∀ n ∈ nodes, n.alike (f n) = true := by
  induction nodes with
  | nil => simp [allAlike]
  | cons n nodes ih => simp [allAlike, ih]

/-! ### Indentation -/

theorem isBlankString_margin (level : Nat) : isBlankString (margin level) = true := by
  rw [isBlankString, margin, String.toList_ofList, Blank.isBlankText, List.all_eq_true]
  intro c member
  rcases List.mem_cons.mp member with rfl | spaces
  · decide
  · rw [List.eq_of_mem_replicate spaces]
    decide

theorem settle_same (empty : isBlankString blank = true) : sameSlot true s (settle blank s) = true := by
  rw [sameSlot_exact, settle]
  split
  · exact .inr ⟨rfl, ‹_›, empty⟩
  · exact .inl rfl

theorem settleLast_alike (empty : isBlankString blank = true) :
    allAlike nodes (settleLast blank nodes) = true := by
  induction nodes using settleLast.induct with
  | case1 => rfl
  | case2 n => simp [settleLast, allAlike, alike_withTail n.alike_refl (settle_same empty)]
  | case3 n rest some ih =>
    rw [settleLast]
    · simp [allAlike, n.alike_refl, ih]
    · exact some

mutual
theorem Node.indent_alike : (n : Node) → (level : Nat) → n.alike (n.indent level) = true
  | .comment text tail, _ => Node.alike_refl (.comment text tail)
  | .element name attributes text children tail, level => by
    rw [Node.indent]
    split
    · exact Node.alike_refl _
    · rename_i some
      have below := allAlike_trans _ _ _ (indentAll_alike children (level + 1))
        (settleLast_alike (isBlankString_margin level))
      have inside : sameSlot true text (settle (margin (level + 1)) text) = true :=
        settle_same (isBlankString_margin (level + 1))
      simp only [Bool.not_eq_true] at some
      simp [Node.alike, some, inside, below]

theorem indentAll_alike : (nodes : List Node) → (level : Nat) →
    allAlike nodes (indentAll level nodes) = true
  | [], _ => rfl
  | n :: rest, level => by
    have first := alike_withTail (n.indent_alike level) (settle_same (isBlankString_margin level))
    simp [indentAll, allAlike, first, indentAll_alike rest level]
end

/-! ### What is kept -/

-- Whether every element has a namespace.
mutual
def Node.spaced : Node → Bool
  | .comment _ _ => true
  | .element name _ _ children _ => name.space.isSome && allSpaced children

def allSpaced : List Node → Bool
  | [] => true
  | n :: rest => n.spaced && allSpaced rest
end

def quietSlot (beside : Bool) (s : String) : Bool :=
  !s.toList.contains '\r' || (beside && isBlankString s)

-- Whether no text holds a carriage return, but for blank ones beside a child.
mutual
def Node.quiet : Node → Bool
  | .comment _ tail => quietSlot true tail
  | .element _ _ text children tail =>
      quietSlot (!children.isEmpty) text && allQuiet children && quietSlot true tail

def allQuiet : List Node → Bool
  | [] => true
  | n :: rest => n.quiet && allQuiet rest
end

theorem allSpaced_exact : allSpaced nodes = true ↔ ∀ n ∈ nodes, n.spaced = true := by
  induction nodes with
  | nil => simp [allSpaced]
  | cons n nodes ih => simp [allSpaced, ih]

theorem allQuiet_exact : allQuiet nodes = true ↔ ∀ n ∈ nodes, n.quiet = true := by
  induction nodes with
  | nil => simp [allQuiet]
  | cons n nodes ih => simp [allQuiet, ih]

theorem quietSlot_same (same : sameSlot beside s t = true) : quietSlot beside s = quietSlot beside t := by
  rcases sameSlot_exact.mp same with rfl | ⟨rfl, one, other⟩
  · rfl
  · simp [quietSlot, one, other]

mutual
theorem Node.alike_spaced : (n m : Node) → n.alike m = true → n.spaced = m.spaced
  | .comment _ _, .comment _ _, _ => rfl
  | .element _ _ _ children _, .element _ _ _ children' _, same => by
    simp only [Node.alike, Bool.and_eq_true, decide_eq_true_eq] at same
    rw [Node.spaced, Node.spaced, same.1.1.1.1, allAlike_spaced children children' same.1.2]
  | .comment _ _, .element _ _ _ _ _, same => by simp [Node.alike] at same
  | .element _ _ _ _ _, .comment _ _, same => by simp [Node.alike] at same

theorem allAlike_spaced : (nodes others : List Node) → allAlike nodes others = true →
    allSpaced nodes = allSpaced others
  | [], [], _ => rfl
  | n :: rest, m :: rest', same => by
    simp only [allAlike, Bool.and_eq_true] at same
    rw [allSpaced, allSpaced, n.alike_spaced m same.1, allAlike_spaced rest rest' same.2]
  | [], _ :: _, same => by simp [allAlike] at same
  | _ :: _, [], same => by simp [allAlike] at same
end

mutual
theorem Node.alike_quiet : (n m : Node) → n.alike m = true → n.quiet = m.quiet
  | .comment _ _, .comment _ _, same => by
    simp only [Node.alike, Bool.and_eq_true] at same
    exact quietSlot_same same.2
  | .element _ _ _ children _, .element _ _ _ children' _, same => by
    simp only [Node.alike, Bool.and_eq_true] at same
    obtain ⟨⟨⟨_, inside⟩, below⟩, behind⟩ := same
    rw [Node.quiet, Node.quiet, quietSlot_same inside, quietSlot_same behind,
      allAlike_quiet children children' below, allAlike_isEmpty below]
  | .comment _ _, .element _ _ _ _ _, same => by simp [Node.alike] at same
  | .element _ _ _ _ _, .comment _ _, same => by simp [Node.alike] at same

theorem allAlike_quiet : (nodes others : List Node) → allAlike nodes others = true →
    allQuiet nodes = allQuiet others
  | [], [], _ => rfl
  | n :: rest, m :: rest', same => by
    simp only [allAlike, Bool.and_eq_true] at same
    rw [allQuiet, allQuiet, n.alike_quiet m same.1, allAlike_quiet rest rest' same.2]
  | [], _ :: _, same => by simp [allAlike] at same
  | _ :: _, [], same => by simp [allAlike] at same
end

/-! ### Reading the canonical form -/

-- The tree with every bare element in a default namespace.
mutual
def Node.inDefault (default : Option String) : Node → Node
  | .comment text tail => .comment text tail
  | .element name attributes text children tail =>
      .element (name.inDefault default) attributes text (inDefaultAll default children) tail

def inDefaultAll (default : Option String) : List Node → List Node
  | [] => []
  | n :: rest => n.inDefault default :: inDefaultAll default rest
end

theorem inDefaultAll_map : inDefaultAll default nodes = nodes.map (Node.inDefault default) := by
  induction nodes with
  | nil => rfl
  | cons n nodes ih => rw [inDefaultAll, ih, List.map_cons]

theorem inDefault_none (name : Name) : name.inDefault none = name := by
  rw [Name.inDefault, Option.or_none]

mutual
theorem Node.inDefault_none : (n : Node) → n.inDefault none = n
  | .comment _ _ => rfl
  | .element name _ _ children _ => by
    rw [Node.inDefault, Xml.inDefault_none, inDefaultAll_none children]

theorem inDefaultAll_none : (nodes : List Node) → inDefaultAll none nodes = nodes
  | [] => rfl
  | n :: rest => by rw [inDefaultAll, n.inDefault_none, inDefaultAll_none rest]
end

-- Whether nothing of a tree is dropped by its reader.
mutual
def Node.retained (keep : Comments) : Node → Bool
  | .comment _ _ => keep = .kept
  | .element _ _ _ children _ => allRetained keep children

def allRetained (keep : Comments) : List Node → Bool
  | [] => true
  | n :: rest => n.retained keep && allRetained keep rest
end

theorem allRetained_exact : allRetained keep nodes = true ↔ ∀ n ∈ nodes, n.retained keep = true := by
  induction nodes with
  | nil => simp [allRetained]
  | cons n nodes ih => simp [allRetained, ih]

mutual
theorem Node.retained_kept : (n : Node) → n.retained .kept = true
  | .comment _ _ => rfl
  | .element _ _ _ children _ => allRetained_kept children

theorem allRetained_kept : (nodes : List Node) → allRetained .kept nodes = true
  | [] => rfl
  | n :: rest => by rw [allRetained, n.retained_kept, allRetained_kept rest, Bool.and_self]
end

mutual
theorem Node.reread_inDefault (default : Option String) : (n : Node) → n.retained keep = true →
    (n.reread keep default).withTail n.tail = n.inDefault default
  | .comment _ _, _ => rfl
  | .element name attributes text children tail, retained => by
    rw [Node.reread, elementOf, rereadAll_inDefault default children text retained, String.ofList_toList]
    rfl

theorem rereadAll_inDefault (default : Option String) : (nodes : List Node) → (text : String) →
    allRetained keep nodes = true →
    assemble (.text text.toList :: rereadAll keep default nodes) = (text.toList, inDefaultAll default nodes)
  | [], text, _ => by simp [rereadAll, assemble, inDefaultAll]
  | n :: rest, text, retained => by
    simp only [allRetained, Bool.and_eq_true] at retained
    have stays : keep = .kept ∨ n.name?.isSome = true := by
      cases n with
      | comment => exact .inl (of_decide_eq_true retained.1)
      | element => exact .inr rfl
    rw [rereadAll, if_pos stays, List.singleton_append, assemble, assemble,
      rereadAll_inDefault default rest n.tail retained.2]
    simp [inDefaultAll, n.reread_inDefault default retained.1]
end

mutual
theorem Node.withoutSpace_inDefault (uri : String) : (n : Node) →
    (n.withoutSpace uri).inDefault (some uri) = n.inDefault (some uri)
  | .comment _ _ => rfl
  | .element name _ _ children _ => by
    rw [Node.withoutSpace, Node.inDefault, Node.inDefault, withoutSpaceAll_inDefault uri children]
    split
    · simp [Name.inDefault, *]
    · rfl

theorem withoutSpaceAll_inDefault (uri : String) : (nodes : List Node) →
    inDefaultAll (some uri) (withoutSpaceAll uri nodes) = inDefaultAll (some uri) nodes
  | [] => rfl
  | n :: rest => by
    rw [withoutSpaceAll, inDefaultAll, inDefaultAll, n.withoutSpace_inDefault uri,
      withoutSpaceAll_inDefault uri rest]
end

theorem adopted_inDefault : n.adopted.inDefault n.rootSpace? = n.inDefault n.rootSpace? := by
  unfold Node.adopted
  split
  · rename_i uri space
    rw [space, n.withoutSpace_inDefault uri]
  · rfl

mutual
theorem Node.unified_inDefault (default : Option String) : (n : Node) →
    n.unified.inDefault default = (n.inDefault default).unified
  | .comment _ _ => rfl
  | .element _ _ _ children _ => by
    rw [Node.unified, Node.inDefault, Node.inDefault, Node.unified, unifiedAll_inDefault default children]

theorem unifiedAll_inDefault (default : Option String) : (nodes : List Node) →
    inDefaultAll default (unifiedAll nodes) = unifiedAll (inDefaultAll default nodes)
  | [] => rfl
  | n :: rest => by
    rw [unifiedAll, inDefaultAll, inDefaultAll, unifiedAll, n.unified_inDefault default,
      unifiedAll_inDefault default rest]
end

theorem reread_last (retained : n.retained keep = true) (last : n.tail = "") :
    n.reread keep default = n.inDefault default := by
  rw [← n.reread_inDefault default retained, last]
  cases n <;> rfl

theorem rootSpace?_indent : (n.indent level).rootSpace? = n.rootSpace? := by
  rw [Node.rootSpace?, indent_kept.1]
  rfl

theorem unified_tail (last : n.tail = "") : n.unified.tail = "" := by
  cases n <;> simp_all [Node.unified, Node.tail, unifyBreaksString, unifyBreaks]

theorem inDefault_unified_label : (n.inDefault default).unified.label = n.label := by
  cases n <;> rfl

theorem parse?_canonical_kept (root : n.Root) (other : n.rootSpace? ≠ some xmlSpace) :
    parse? .kept n.canonical = some ((n.indent 0).inDefault n.rootSpace?).unified := by
  rw [parse?_canonical root other, reread_last (Node.retained_kept _) (unified_tail root.settled.last),
    Node.unified_inDefault, Node.settled]
  have adopted := adopted_inDefault (n := n.indent 0)
  rw [rootSpace?_indent] at adopted
  rw [adopted]

/-! ### Where the meaning is kept -/

theorem unifyBreaks_blank (empty : Blank.isBlankText cs = true) : Blank.isBlankText (unifyBreaks cs) = true := by
  induction cs using unifyBreaks.induct with
  | case1 => rfl
  | case2 cs ih =>
    rw [unifyBreaks]
    simp only [Blank.isBlankText, List.all_cons, Bool.and_eq_true] at empty ih ⊢
    exact ⟨by decide, ih empty.2.2⟩
  | case3 cs alone ih =>
    rw [unifyBreaks]
    · simp only [Blank.isBlankText, List.all_cons, Bool.and_eq_true] at empty ih ⊢
      exact ⟨by decide, ih empty.2⟩
    · exact alone
  | case4 c cs _ other ih =>
    have other : c ≠ '\r' := other
    rw [unifyBreaks_cons other]
    simp only [Blank.isBlankText, List.all_cons, Bool.and_eq_true] at empty ih ⊢
    exact ⟨empty.1, ih empty.2⟩

theorem unifyBreaksString_exact : s = unifyBreaksString s ↔ '\r' ∉ s.toList := by
  constructor
  · intro same
    rw [same, unifyBreaksString_toList]
    exact unifyBreaks_noReturn
  · intro quiet
    rw [unifyBreaksString, unifyBreaks_self quiet, String.ofList_toList]

theorem sameSlot_unified : sameSlot beside s (unifyBreaksString s) = quietSlot beside s := by
  rw [Bool.eq_iff_iff, sameSlot_exact, unifyBreaksString_exact]
  have blank (empty : isBlankString s = true) : isBlankString (unifyBreaksString s) = true := by
    rw [isBlankString, unifyBreaksString_toList]
    exact unifyBreaks_blank empty
  simp only [quietSlot, Bool.or_eq_true, Bool.and_eq_true, Bool.not_eq_true', List.contains_eq_mem,
    decide_eq_false_iff_not]
  exact or_congr_right (and_congr_right fun _ => and_iff_left_of_imp blank)

theorem inDefault_exact {name : Name} : name = name.inDefault default ↔ default = none ∨ name.space.isSome := by
  obtain ⟨space, label⟩ := name
  cases space <;> cases default <;> simp [Name.inDefault]

theorem unified_alike (proper : n.Proper) : n.alike (n.inDefault default).unified = true ↔
    (default = none ∨ n.spaced = true) ∧ n.quiet = true := by
  induction proper with
  | comment _ quiet _ _ =>
    rw [Node.inDefault, Node.unified, ← unifyBreaksString_exact.mpr quiet]
    simp [Node.alike, Node.spaced, Node.quiet, sameSlot_unified]
  | @element name attributes text children tail _ _ _ _ _ _ ih =>
    have below : allAlike children (unifiedAll (inDefaultAll default children)) = true ↔
        (default = none ∨ allSpaced children = true) ∧ allQuiet children = true := by
      rw [unifiedAll_map, inDefaultAll_map, List.map_map, allAlike_map, allSpaced_exact, allQuiet_exact]
      have each (n : Node) (member : n ∈ children) := ih n member
      simp only [Function.comp_apply]
      cases default with
      | none => simpa using forall₂_congr each
      | some uri => simpa [forall_and] using forall₂_congr each
    rw [Node.inDefault, Node.unified, Node.spaced, Node.quiet, Node.alike]
    simp only [Bool.and_eq_true, decide_eq_true_eq, sameSlot_unified, below, inDefault_exact]
    tauto

-- The trees whose meaning the canonical form keeps.
structure Node.Faithful (n : Node) : Prop where
  other : n.rootSpace? ≠ some xmlSpace
  spaced : n.rootSpace? = none ∨ n.spaced = true
  quiet : n.quiet = true

instance : Decidable n.Faithful :=
  decidable_of_iff (n.rootSpace? ≠ some xmlSpace ∧ (n.rootSpace? = none ∨ n.spaced = true) ∧ n.quiet = true)
    ⟨fun ⟨other, spaced, quiet⟩ => ⟨other, spaced, quiet⟩,
      fun faithful => ⟨faithful.other, faithful.spaced, faithful.quiet⟩⟩

theorem alike_canonical (proper : n.Proper) :
    n.alike ((n.indent 0).inDefault default).unified = true ↔
      (default = none ∨ n.spaced = true) ∧ n.quiet = true := by
  have indented := n.indent_alike 0
  rw [n.alike_spaced _ indented, n.alike_quiet _ indented, ← unified_alike (indent_proper proper 0)]
  constructor
  · exact Node.alike_trans _ _ _ (Node.alike_symm _ _ indented)
  · exact Node.alike_trans _ _ _ indented

end InlineProject.Xml

namespace InlineProject.Project

open Xml

variable {cs : List Char} {root : Node}

theorem ofMarkup?_canonical (rooted : root.Root) (label : root.label = rootLabel)
    (other : root.rootSpace? ≠ some xmlSpace) :
    ofMarkup? root.canonical = some ((root.indent 0).inDefault root.rootSpace?).unified := by
  have named : ((root.indent 0).inDefault root.rootSpace?).unified.label = rootLabel := by
    rw [inDefault_unified_label, Node.label, indent_kept.1]
    exact label
  unfold ofMarkup?
  rw [parse?_canonical_kept rooted other]
  dsimp only [Option.bind_eq_bind, Option.bind_some]
  rw [if_pos named]
  rfl

theorem canonical_meaning_exact (read : ofMarkup? cs = some root) :
    (∃ again, ofMarkup? root.canonical = some again ∧ root.alike again = true) ↔ root.Faithful := by
  obtain ⟨rooted, label⟩ := Normalizer.ofMarkup?_root read
  have same : root.alike ((root.indent 0).inDefault root.rootSpace?).unified = true ↔
      (root.rootSpace? = none ∨ root.spaced = true) ∧ root.quiet = true := alike_canonical rooted.proper
  constructor
  · rintro ⟨again, found, alike⟩
    have other : root.rootSpace? ≠ some xmlSpace := by
      intro reserved
      unfold ofMarkup? at found
      rw [parse?_canonical_refused rooted reserved] at found
      cases found
    rw [ofMarkup?_canonical rooted label other] at found
    cases found
    exact ⟨other, (same.mp alike).1, (same.mp alike).2⟩
  · intro faithful
    exact ⟨_, ofMarkup?_canonical rooted label faithful.other, same.mpr ⟨faithful.spaced, faithful.quiet⟩⟩

-- Mixed content below a prefixed root, and a bare element below such a root.
theorem canonical_meaning_exact_mixed :
    (∃ root again, ofMarkup? ("<p:Project xmlns:p='urn:a' p:x='1&#13;'>a<p:Item> <!-- b --></p:Item>&lt;" ++
        "<q:Item xmlns:q='urn:b'/></p:Project>").toList = some root ∧
      ofMarkup? root.canonical = some again ∧ root.alike again = true) ∧
    ∃ root, ofMarkup? "<p:Project xmlns:p='urn:a'><Item/></p:Project>".toList = some root ∧
      ¬∃ again, ofMarkup? root.canonical = some again ∧ root.alike again = true := by
  have mixed : (ofMarkup? ("<p:Project xmlns:p='urn:a' p:x='1&#13;'>a<p:Item> <!-- b --></p:Item>&lt;" ++
      "<q:Item xmlns:q='urn:b'/></p:Project>").toList).any (fun root => root.Faithful) = true := by
    decide +kernel
  have bare : (ofMarkup? "<p:Project xmlns:p='urn:a'><Item/></p:Project>".toList).any
      (fun root => ¬root.Faithful) = true := by
    decide +kernel
  obtain ⟨root, read, faithful⟩ := (Option.any_eq_true _ _).mp mixed
  obtain ⟨root', read', unfaithful⟩ := (Option.any_eq_true _ _).mp bare
  obtain ⟨again, found, same⟩ := (canonical_meaning_exact read).mpr (of_decide_eq_true faithful)
  refine ⟨⟨root, again, read, found, same⟩, root', read', ?_⟩
  intro kept
  exact of_decide_eq_true unfaithful ((canonical_meaning_exact read').mp kept)

end InlineProject.Project
