import Mathlib
import InlineProject.Configuration
import InlineProject.Proofs.MarkupMeaning
/-!
The canonical form is a fixed point. Reading it gives a tree that is indented already, whose bare elements
are those of the root's namespace, so it is written as it was read; only a carriage return, which reading
makes a line feed, and a default namespace that no document may have come out otherwise.
-/

namespace InlineProject.Xml

open Lines

variable {n m : Node} {default : Option String} {marks : Marks} {declared : List Char}
  {uri s t blank : String} {level : Nat} {nodes : List Node}

/-! ### Indentation once more -/

theorem settle_settle (empty : isBlankString t = true) : settle blank (settle t s) = settle blank s := by
  unfold settle
  by_cases still : isBlankString s = true
  · rw [if_pos still, if_pos still, if_pos empty]
  · rw [if_neg still]

theorem indent_withTail : (n.withTail t).indent level = (n.indent level).withTail t := by
  cases n with
  | comment => rfl
  | element name attributes text children tail =>
    rw [Node.withTail, Node.indent, Node.indent]
    split <;> rfl

theorem withTail_withTail : (n.withTail s).withTail t = n.withTail t := by cases n <;> rfl

theorem withTail_tail : (n.withTail t).tail = t := by cases n <;> rfl

theorem settleLast_isEmpty : (settleLast blank nodes).isEmpty = nodes.isEmpty := by
  fun_cases settleLast blank nodes <;> rfl

theorem indentAll_isEmpty : (indentAll level nodes).isEmpty = nodes.isEmpty := by
  cases nodes <;> rfl

theorem settleLast_cons (some : nodes ≠ []) : settleLast blank (n :: nodes) = n :: settleLast blank nodes := by
  rw [settleLast]
  exact some

theorem indentAll_settleLast (empty : isBlankString blank = true)
    (each : ∀ n ∈ nodes, (n.indent level).indent level = n.indent level) :
    settleLast blank (indentAll level (settleLast blank (indentAll level nodes)))
      = settleLast blank (indentAll level nodes) := by
  have space := isBlankString_margin level
  induction nodes with
  | nil => rfl
  | cons n nodes ih =>
    have first (t : String) : ((n.indent level).withTail t).indent level = (n.indent level).withTail t := by
      rw [indent_withTail, each n List.mem_cons_self]
    cases nodes with
    | nil =>
      simp only [indentAll, settleLast, first, withTail_withTail, withTail_tail, settle_settle space,
        settle_settle empty]
    | cons m nodes =>
      have others := ih fun l member => each l (List.mem_cons_of_mem _ member)
      have some : indentAll level (m :: nodes) ≠ [] := List.cons_ne_nil _ _
      rw [indentAll, settleLast_cons some, indentAll, settleLast_cons, others]
      · simp only [first, withTail_withTail, withTail_tail, settle_settle space]
      · rw [← List.isEmpty_eq_false_iff, indentAll_isEmpty, settleLast_isEmpty]
        rfl

mutual
theorem Node.indent_again : (n : Node) → (level : Nat) → (n.indent level).indent level = n.indent level
  | .comment _ _, _ => rfl
  | .element name attributes text children tail, level => by
    rw [Node.indent]
    split
    · rename_i none
      rw [Node.indent, if_pos none]
    · rename_i some
      have kept : ¬(settleLast (margin level) (indentAll (level + 1) children)).isEmpty = true := by
        rwa [settleLast_isEmpty, indentAll_isEmpty]
      rw [Node.indent, if_neg kept, settle_settle (isBlankString_margin _),
        indentAll_settleLast (isBlankString_margin _) (indentAll_again children (level + 1))]

theorem indentAll_again : (nodes : List Node) → (level : Nat) →
    ∀ n ∈ nodes, (n.indent level).indent level = n.indent level
  | [], _ => fun _ member => absurd member List.not_mem_nil
  | n :: rest, level => by
    intro m member
    rcases List.mem_cons.mp member with same | later
    · rw [same]
      exact n.indent_again level
    · exact indentAll_again rest level m later
end

/-! ### The default namespace once more -/

theorem inDefault_tail : (n.inDefault default).tail = n.tail := by cases n <;> rfl

theorem inDefault_withTail : (n.withTail t).inDefault default = (n.inDefault default).withTail t := by
  cases n <;> rfl

theorem settleLast_inDefault :
    settleLast blank (inDefaultAll default nodes) = inDefaultAll default (settleLast blank nodes) := by
  induction nodes with
  | nil => rfl
  | cons n nodes ih =>
    cases nodes with
    | nil => simp only [inDefaultAll, settleLast, inDefault_withTail, inDefault_tail]
    | cons m nodes =>
      rw [inDefaultAll, settleLast_cons, ih, settleLast_cons (List.cons_ne_nil _ _), inDefaultAll]
      rw [inDefaultAll]
      exact List.cons_ne_nil _ _

theorem inDefaultAll_isEmpty : (inDefaultAll default nodes).isEmpty = nodes.isEmpty := by
  cases nodes <;> rfl

mutual
theorem Node.indent_inDefault (default : Option String) : (n : Node) → (level : Nat) →
    (n.inDefault default).indent level = (n.indent level).inDefault default
  | .comment _ _, _ => rfl
  | .element name attributes text children tail, level => by
    rw [Node.inDefault, Node.indent, Node.indent, inDefaultAll_isEmpty]
    split
    · rfl
    · rw [indentAll_inDefault default children, settleLast_inDefault]
      rfl

theorem indentAll_inDefault (default : Option String) : (nodes : List Node) → (level : Nat) →
    indentAll level (inDefaultAll default nodes) = inDefaultAll default (indentAll level nodes)
  | [], _ => rfl
  | n :: rest, level => by
    rw [inDefaultAll, indentAll, n.indent_inDefault default, indentAll_inDefault default rest, indentAll,
      inDefaultAll, inDefault_withTail, inDefault_tail]
end

mutual
theorem Node.inDefault_withoutSpace (uri : String) : (n : Node) →
    (n.inDefault (some uri)).withoutSpace uri = n.withoutSpace uri
  | .comment _ _ => rfl
  | .element name _ _ children _ => by
    rw [Node.inDefault, Node.withoutSpace, Node.withoutSpace, inDefaultAll_withoutSpace uri children]
    obtain ⟨space, label⟩ := name
    cases space with
    | none => simp [Name.inDefault]
    | some other => rfl

theorem inDefaultAll_withoutSpace (uri : String) : (nodes : List Node) →
    withoutSpaceAll uri (inDefaultAll (some uri) nodes) = withoutSpaceAll uri nodes
  | [] => rfl
  | n :: rest => by
    rw [inDefaultAll, withoutSpaceAll, withoutSpaceAll, n.inDefault_withoutSpace uri,
      inDefaultAll_withoutSpace uri rest]
end

theorem inDefault_rootSpace? : (n.inDefault n.rootSpace?).rootSpace? = n.rootSpace? := by
  cases space : n.rootSpace? with
  | none => rw [Node.inDefault_none, space]
  | some uri =>
    obtain ⟨name, named, spaced⟩ := rootSpace?_name space
    rw [← space]
    unfold Node.rootSpace?
    cases n with
    | comment => cases named
    | element =>
      cases named
      simp [Node.inDefault, Node.name?, Name.inDefault, spaced]

theorem inDefault_adopted : (n.inDefault n.rootSpace?).adopted = n.adopted := by
  unfold Node.adopted
  rw [inDefault_rootSpace?]
  cases space : n.rootSpace? with
  | none => exact Node.inDefault_none n
  | some uri => exact n.inDefault_withoutSpace uri

/-! ### Line breaks once more -/

theorem escapedText_return (member : '\r' ∈ s.toList) : '\r' ∈ escapedText s :=
  List.mem_flatMap.mpr ⟨'\r', member, by decide⟩

theorem unifyBreaksString_quiet (quiet : '\r' ∉ s.toList) : unifyBreaksString s = s :=
  (unifyBreaksString_exact.mpr quiet).symm

mutual
-- What is written without a carriage return comes from texts without one.
theorem Node.unified_of_quiet : (n : Node) → (declared : List Char) → '\r' ∉ n.write marks declared →
    n.unified = n
  | .comment text tail, declared, quiet => by
    rw [Node.write] at quiet
    simp only [List.mem_append, not_or] at quiet
    have behind : '\r' ∉ tail.toList := fun member => quiet.2 (escapedText_return member)
    rw [Node.unified, unifyBreaksString_quiet quiet.1.1.2, unifyBreaksString_quiet behind]
  | .element name attributes text children tail, declared, quiet => by
    rw [Node.write] at quiet
    dsimp only at quiet
    rw [List.mem_append, not_or] at quiet
    have behind : '\r' ∉ tail.toList := fun member => quiet.2 (escapedText_return member)
    have inside : '\r' ∉ text.toList ∧ unifiedAll children = children := by
      have body := quiet.1
      split at body
      · rename_i nothing
        obtain ⟨noText, noChildren⟩ := Bool.and_eq_true_iff.mp nothing
        rw [String.isEmpty_iff.mp noText, List.isEmpty_iff.mp noChildren]
        exact ⟨List.not_mem_nil, rfl⟩
      · simp only [List.mem_append, List.mem_cons, not_or] at body
        exact ⟨fun member => body.1.1.1.2.2 (escapedText_return member),
          unifiedAll_of_quiet children body.1.1.2⟩
    rw [Node.unified, unifyBreaksString_quiet inside.1, inside.2, unifyBreaksString_quiet behind]

theorem unifiedAll_of_quiet : (nodes : List Node) → '\r' ∉ writeAll marks nodes → unifiedAll nodes = nodes
  | [], _ => rfl
  | n :: rest, quiet => by
    rw [writeAll, List.mem_append, not_or] at quiet
    rw [unifiedAll, n.unified_of_quiet [] quiet.1, unifiedAll_of_quiet rest quiet.2]
end

/-! ### Canonical forms once more -/

theorem canonical_again (root : n.Root) (other : n.rootSpace? ≠ some xmlSpace) (quiet : '\r' ∉ n.canonical) :
    ((n.indent 0).inDefault n.rootSpace?).unified.canonical = n.canonical := by
  have written := canonical_document root.proper root.element
  have same : (n.indent 0).adopted.unified = (n.indent 0).adopted := by
    rw [written, Node.document] at quiet
    exact Node.unified_of_quiet _ _ quiet
  have adopted : (n.indent 0).adopted.inDefault n.rootSpace? = (n.indent 0).inDefault n.rootSpace? := by
    have adopted := adopted_inDefault (n := n.indent 0)
    rwa [rootSpace?_indent] at adopted
  have unbroken : ((n.indent 0).inDefault n.rootSpace?).unified = (n.indent 0).inDefault n.rootSpace? := by
    rw [← adopted, ← Node.unified_inDefault, same]
  have space : ((n.indent 0).inDefault n.rootSpace?).rootSpace? = n.rootSpace? := by
    have space := inDefault_rootSpace? (n := n.indent 0)
    rwa [rootSpace?_indent] at space
  have settled : ((n.indent 0).inDefault n.rootSpace?).adopted = (n.indent 0).adopted := by
    have settled := inDefault_adopted (n := n.indent 0)
    rwa [rootSpace?_indent] at settled
  have proper := (parse?_proper (parse?_canonical_kept root other)).1
  rw [unbroken] at proper
  have element : ((n.indent 0).inDefault n.rootSpace?).name?.isSome = true := by
    have element := root.element
    cases n with
    | comment => cases element
    | element name attributes text children tail =>
      rw [Node.indent]
      split <;> rfl
  rw [unbroken, canonical_document proper element, Node.indent_inDefault, Node.indent_again, settled, space,
    written]

-- Whether the first tag of a text makes the namespace of the language the default one.
def declaresReserved (cs : List Char) : Bool :=
  match tag? .empty (cs.drop 1) with
  | some (t, _) => t.attributes.contains (⟨none, "xmlns"⟩, xmlSpace.toList)
  | none => false

theorem document_declares (root : n.Root) (space : Space uri) :
    ∃ t rest, tag? .empty ((n.document (some uri)).drop 1) = some (t, rest) ∧
      (⟨none, "xmlns"⟩, uri.toList) ∈ t.attributes := by
  obtain ⟨proper, element, last⟩ := root
  cases n with
  | comment => cases element
  | element name attributes text children tail =>
    cases last
    have rooted := document_rooted (some uri) proper fun other same => Option.some.inj same ▸ space
    have bound : asRead (declaration ("", uri)) = (⟨none, "xmlns"⟩, uri.toList) := rfl
    rw [Node.document, write_root rooted, List.drop_succ_cons, List.drop_zero]
    unfold elementText openTag
    split
    · refine ⟨_, _, tag?_tagged rooted.toTagged, List.mem_map.mpr ⟨_, ?_, bound⟩⟩
      exact List.mem_append_left _ (List.mem_map_of_mem (mem_bindingsOf.mpr (.inr ⟨rfl, rfl⟩)))
    · refine ⟨_, _, tag?_tagged rooted.toTagged, List.mem_map.mpr ⟨_, ?_, bound⟩⟩
      exact List.mem_append_left _ (List.mem_map_of_mem (mem_bindingsOf.mpr (.inr ⟨rfl, rfl⟩)))

theorem canonical_declares (root : n.Root) (reserved : n.rootSpace? = some xmlSpace) :
    declaresReserved n.canonical = true := by
  have settled : (n.indent 0).adopted.Root := root.settled
  obtain ⟨t, rest, read, member⟩ := document_declares settled (root.space _ reserved)
  rw [canonical_document root.proper root.element, reserved, declaresReserved, read]
  simpa using member

end InlineProject.Xml

namespace InlineProject.Normalizer

open Xml

variable {n : Normalizer} {root : Node} {mode : MarkMode} {s r : String}

theorem normalize_canonical (rooted : root.Root) (label : root.label = Project.rootLabel)
    (other : root.rootSpace? ≠ some xmlSpace) (quiet : '\r' ∉ root.canonical) :
    n.normalize (String.ofList root.canonical) = .ok (String.ofList root.canonical) := by
  unfold normalize read
  rw [String.toList_ofList, Project.ofMarkup?_canonical rooted label other]
  dsimp only [Except.map]
  rw [Reading.xml, canonical_again rooted other quiet]

-- The normalizer that the settings have by default, but for its mode.
def standard (mode : MarkMode) : Normalizer := ⟨Configuration.defaultProject.defaultXml, mode⟩

theorem standard_default : (standard mode).normalize (standard mode).defaultXml = .ok (standard mode).defaultXml := by
  cases mode <;> decide +kernel

theorem standard_empty : (standard mode).normalize "" = .ok "" := by
  cases mode <;> decide +kernel

theorem normalize_fixed (given : (standard mode).normalize s = .ok r) :
    '\r' ∈ r.toList ∨ declaresReserved r.toList = true ∨ (standard mode).normalize r = .ok r := by
  have again {root : Node} (rooted : root.Root) (label : root.label = Project.rootLabel)
      (other : root.rootSpace? ≠ some xmlSpace) :
      '\r' ∈ root.canonical ∨ (standard mode).normalize (String.ofList root.canonical)
        = .ok (String.ofList root.canonical) := by
    rw [or_iff_not_imp_left]
    exact normalize_canonical rooted label other
  obtain ⟨reading, taken, rfl⟩ := Project.map_parts given
  unfold read at taken
  cases markup : Project.ofMarkup? s.toList with
  | some root =>
    rw [markup] at taken
    cases taken
    obtain ⟨rooted, label⟩ := ofMarkup?_root markup
    rw [Reading.xml, String.toList_ofList]
    by_cases reserved : root.rootSpace? = some xmlSpace
    · exact .inr (.inl (canonical_declares rooted reserved))
    · exact (again rooted label reserved).imp_right .inr
  | none =>
    rw [markup] at taken
    rcases readDocument_xml taken with nothing | standard | ⟨j, xml, made, same⟩
    · rw [nothing]
      exact .inr (.inr standard_empty)
    · rw [standard]
      exact .inr (.inr standard_default)
    · obtain ⟨root, rooted, label, other, rfl⟩ := Project.ofJson_root made
      rw [same, String.toList_ofList]
      exact (again rooted label other).imp_right .inr

-- Markup with a prefixed root, and a document in the mode that exchanges marks in its text.
theorem normalize_fixed_mixed :
    (∃ r, (standard .structured).normalize
        "<p:Project xmlns:p='urn:a'>a<p:Item xmlns:b='urn:b' b:x='&#10;'/><!--c--></p:Project>" = .ok r ∧
      (standard .structured).normalize r = .ok r) ∧
    ∃ r, (standard .text).normalize "_Sdk: A\nItem: _b" = .ok r ∧ (standard .text).normalize r = .ok r := by
  have markup : (standard .structured).normalize
        "<p:Project xmlns:p='urn:a'>a<p:Item xmlns:b='urn:b' b:x='&#10;'/><!--c--></p:Project>"
      = .ok ("<Project xmlns:ns0=\"urn:b\" xmlns=\"urn:a\">a<Item ns0:x=\"&#10;\" />\n" ++
          "  <!--c-->\n</Project>") := by
    decide +kernel
  have document : (standard .text).normalize "_Sdk: A\nItem: _b"
      = .ok "<Project Sdk=\"A\">\n  <Item>@b</Item>\n</Project>" := by
    decide +kernel
  exact ⟨⟨_, markup, ((normalize_fixed markup).resolve_left (by decide +kernel)).resolve_left (by decide +kernel)⟩,
    _, document, ((normalize_fixed document).resolve_left (by decide +kernel)).resolve_left (by decide +kernel)⟩

end InlineProject.Normalizer
