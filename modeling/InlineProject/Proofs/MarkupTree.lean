import Mathlib
import InlineProject.Proofs.MarkupDoctype
import InlineProject.Xml.Parser
/-!
The trees that documents have. Their names are names and their namespaces could be bound, an element does
not repeat an attribute, no attribute is a declaration of a namespace, and all texts are made of allowed
characters.
-/

namespace InlineProject.Xml

variable {cs rest : List Char} {d : Doctype} {s s' : Scope} {keep : Comments} {fuel : Nat}
  {opened : List String} {n : Node}

/-! ### Names and scopes -/

-- A namespace that a name can have.
structure Space (uri : String) : Prop where
  some : uri ≠ ""
  undeclared : uri ≠ xmlnsSpace
  noBrace : '\x7d' ∉ uri.toList
  allowed : Allowed uri.toList

structure Name.Proper (n : Name) : Prop where
  label : Label n.label
  space : ∀ uri, n.space = some uri → Space uri

structure Binding.Proper (b : String × String) : Prop where
  may : mayBind b.1 b.2 = true
  allowed : Allowed b.2.toList

def Scope.Proper (s : Scope) : Prop := ∀ b ∈ s, Binding.Proper b

structure MayBind (mark uri : String) : Prop where
  free : mark ≠ "xmlns"
  undeclared : uri ≠ xmlnsSpace
  reserved : mark = "xml" ↔ uri = xmlSpace
  nothing : uri = "" → mark = ""
  noBrace : '\x7d' ∉ uri.toList

theorem mayBind_exact {mark uri : String} : mayBind mark uri = true ↔ MayBind mark uri := by
  constructor
  · intro may
    simp only [mayBind, Bool.and_eq_true, Bool.not_eq_true', bne_iff_ne, beq_iff_eq,
      Bool.and_eq_false_iff, List.contains_eq_mem, decide_eq_false_iff_not] at may
    obtain ⟨⟨⟨⟨one, two⟩, three⟩, four⟩, five⟩ := may
    refine ⟨one, two, ?_, ?_, five⟩
    · rw [Bool.eq_iff_iff] at three
      simpa using three
    · simpa [or_comm, imp_iff_not_or] using four
  · intro may
    simp only [mayBind, Bool.and_eq_true, Bool.not_eq_true', bne_iff_ne, beq_iff_eq,
      Bool.and_eq_false_iff, List.contains_eq_mem, decide_eq_false_iff_not]
    refine ⟨⟨⟨⟨may.free, may.undeclared⟩, ?_⟩, ?_⟩, may.noBrace⟩
    · rw [Bool.eq_iff_iff]
      simpa using may.reserved
    · simpa [or_comm, imp_iff_not_or] using may.nothing

theorem xmlSpace_allowed : Allowed xmlSpace.toList := by
  simp [xmlSpace, consortium, Allowed, isAllowed]

theorem Scope.Proper.start : Scope.start.Proper := by
  intro b member
  rw [List.mem_singleton.mp member]
  exact ⟨by decide +kernel, xmlSpace_allowed⟩

theorem Scope.Proper.cons {mark uri : String} (proper : s.Proper) (may : mayBind mark uri = true)
    (allowed : Allowed uri.toList) : Scope.Proper ((mark, uri) :: s) := by
  intro b member
  rcases List.mem_cons.mp member with rfl | old
  · exact ⟨may, allowed⟩
  · exact proper b old

theorem Scope.Proper.lookup (proper : s.Proper) {mark uri : String} (found : s.lookup mark = some uri) :
    MayBind mark uri ∧ Allowed uri.toList := by
  have bound := proper _ (lookup_mem found)
  exact ⟨mayBind_exact.mp bound.may, bound.allowed⟩

theorem Scope.Proper.space (proper : s.Proper) {mark uri : String} (found : s.lookup mark = some uri)
    (some : uri ≠ "") : Space uri := by
  obtain ⟨may, allowed⟩ := proper.lookup found
  exact ⟨some, may.undeclared, may.noBrace, allowed⟩

theorem marked_name (proper : s.Proper) {mark label uri : String} (labelled : Label label)
    (marked : Label mark) (found : s.lookup mark = some uri) : Name.Proper ⟨some uri, label⟩ := by
  refine ⟨labelled, ?_⟩
  rintro _ ⟨⟩
  refine proper.space found fun none => ?_
  exact marked.ne_empty ((proper.lookup found).1.nothing none)

theorem elementName?_proper (proper : s.Proper) {written : WrittenName} (valid : written.Proper)
    {name : Name} (read : s.elementName? written = some name) : name.Proper := by
  unfold Scope.elementName? at read
  split at read
  · rename_i mark marked
    obtain ⟨uri, found, rfl⟩ := Option.map_eq_some_iff.mp read
    exact marked_name proper valid.label (valid.mark mark marked) found
  · split at read
    · cases read
      exact ⟨valid.label, fun _ none => absurd none (by simp)⟩
    · cases read
      exact ⟨valid.label, fun _ none => absurd none (by simp)⟩
    · rename_i uri some found
      cases read
      refine ⟨valid.label, ?_⟩
      rintro _ ⟨⟩
      exact proper.space found some

-- Without a prefix no element is in the namespace of the language itself.
theorem elementName?_unmarked (proper : s.Proper) {label : String} {name : Name}
    (read : s.elementName? ⟨none, label⟩ = some name) :
    name.label = label ∧ name.space ≠ some xmlSpace := by
  unfold Scope.elementName? at read
  dsimp only at read
  split at read
  · cases read
    exact ⟨rfl, by simp⟩
  · cases read
    exact ⟨rfl, by simp⟩
  · rename_i uri some found
    cases read
    refine ⟨rfl, ?_⟩
    rintro ⟨⟩
    have marked : "" = "xml" := (proper.lookup found).1.reserved.mpr rfl
    exact absurd marked (by decide)

theorem attributeName?_proper (proper : s.Proper) {written : WrittenName} (valid : written.Proper)
    {name : Name} (read : s.attributeName? written = some name) : name.Proper := by
  unfold Scope.attributeName? at read
  split at read
  · rename_i mark marked
    obtain ⟨uri, found, rfl⟩ := Option.map_eq_some_iff.mp read
    exact marked_name proper valid.label (valid.mark mark marked) found
  · cases read
    exact ⟨valid.label, fun _ none => absurd none (by simp)⟩

/-! ### Trees -/

structure Attribute.Proper (a : Name × String) : Prop where
  name : a.1.Proper
  undeclared : a.1.space = none → a.1.label ≠ "xmlns"
  allowed : Allowed a.2.toList

inductive Node.Proper : Node → Prop where
  | comment {text tail : String} (single : SingleHyphens text.toList) (quiet : '\r' ∉ text.toList)
      (allowed : Allowed text.toList) (behind : Allowed tail.toList) : Node.Proper (.comment text tail)
  | element {name : Name} {attributes : List (Name × String)} {text : String} {children : List Node}
      {tail : String} (named : name.Proper) (given : ∀ a ∈ attributes, Attribute.Proper a)
      (distinct : (attributes.map (·.1)).Nodup) (inside : Allowed text.toList)
      (below : ∀ n ∈ children, Node.Proper n) (behind : Allowed tail.toList) :
      Node.Proper (.element name attributes text children tail)

theorem Node.Proper.withTail (proper : n.Proper) {tail : String} (allowed : Allowed tail.toList) :
    (n.withTail tail).Proper := by
  cases proper with
  | comment single quiet inside _ => exact .comment single quiet inside allowed
  | element named given distinct inside below _ =>
    exact .element named given distinct inside below allowed

inductive Piece.Proper : Piece → Prop where
  | text {cs : List Char} (allowed : Allowed cs) : Piece.Proper (.text cs)
  | node {n : Node} (proper : n.Proper) : Piece.Proper (.node n)

theorem assemble_proper {pieces : List Piece} (proper : ∀ p ∈ pieces, p.Proper) :
    Allowed (assemble pieces).1 ∧ ∀ n ∈ (assemble pieces).2, n.Proper := by
  induction pieces with
  | nil => exact ⟨.nil, fun _ member => absurd member List.not_mem_nil⟩
  | cons p pieces ih =>
    obtain ⟨text, nodes⟩ := ih fun q member => proper q (List.mem_cons_of_mem _ member)
    cases proper p List.mem_cons_self with
    | text allowed => exact ⟨allowed.append text, nodes⟩
    | node valid =>
      refine ⟨.nil, fun n member => ?_⟩
      rcases List.mem_cons.mp member with rfl | later
      · exact valid.withTail (by rwa [String.toList_ofList])
      · exact nodes n later

/-! ### Tags -/

theorem mapM_exact {α β : Type} {f : α → Option β} {l : List α} {r : List β} :
    l.mapM f = some r ↔ List.Forall₂ (fun a b => f a = some b) l r := by
  induction l generalizing r with
  | nil =>
    rw [List.mapM_nil, List.forall₂_nil_left_iff]
    exact ⟨fun same => (Option.some.inj same).symm, fun none => none ▸ rfl⟩
  | cons a l ih =>
    rw [List.mapM_cons, List.forall₂_cons_left_iff]
    constructor
    · intro mapped
      obtain ⟨b, first, mapped⟩ := Option.bind_eq_some_iff.mp mapped
      obtain ⟨bs, others, mapped⟩ := Option.bind_eq_some_iff.mp mapped
      cases mapped
      exact ⟨b, bs, first, ih.mp others, rfl⟩
    · rintro ⟨b, bs, first, others, rfl⟩
      rw [first, ih.mpr others]
      rfl

structure Given.Proper (a : WrittenName × List Char) : Prop where
  name : a.1.Proper
  allowed : Allowed a.2

structure Tag.Proper (t : Tag) : Prop where
  name : t.name.Proper
  attributes : ∀ a ∈ t.attributes, Given.Proper a

theorem attributes?_parts (proper : d.Proper) (allowed : Allowed cs)
    {attributes : List (WrittenName × List Char)} {closed : Bool}
    (read : attributes? d fuel cs = some (attributes, closed, rest)) :
    (∀ a ∈ attributes, Given.Proper a) ∧ rest <:+ cs := by
  induction fuel generalizing cs attributes with
  | zero => cases read
  | succ fuel ih =>
    unfold attributes? at read
    split at read
    · rename_i ended
      cases read
      exact ⟨fun _ member => absurd member List.not_mem_nil,
        (after?_suffix ended).trans skipSpaces_suffix⟩
    · rename_i ended _
      cases read
      exact ⟨fun _ member => absurd member List.not_mem_nil,
        (after?_suffix ended).trans skipSpaces_suffix⟩
    · obtain ⟨_, apart, read⟩ := Option.bind_eq_some_iff.mp read
      obtain ⟨⟨name, behind⟩, named, read⟩ := Option.bind_eq_some_iff.mp read
      obtain ⟨_, equal, read⟩ := Option.bind_eq_some_iff.mp read
      obtain ⟨⟨raw, behind'⟩, quoted, read⟩ := Option.bind_eq_some_iff.mp read
      obtain ⟨value, expanded, read⟩ := Option.bind_eq_some_iff.mp read
      obtain ⟨⟨more, closed', last⟩, others, read⟩ := Option.bind_eq_some_iff.mp read
      cases read
      obtain ⟨valid, ends⟩ := name?_parts named
      obtain ⟨inside, ends'⟩ := quoted?_parts quoted
      have toValue := ((skipSpaces_suffix.trans (after?_suffix equal)).trans skipSpaces_suffix).trans
        (ends.trans (spaces?_suffix apart))
      have toRest := ends'.trans toValue
      obtain ⟨known, ends''⟩ := ih (allowed.suffix toRest) others
      refine ⟨fun a member => ?_, ends''.trans toRest⟩
      rcases List.mem_cons.mp member with rfl | later
      · exact ⟨valid, expandAttribute_allowed proper (inside (allowed.suffix toValue)) expanded⟩
      · exact known a later

theorem tag?_parts (proper : d.Proper) (allowed : Allowed cs) {t : Tag}
    (read : tag? d cs = some (t, rest)) : t.Proper ∧ rest <:+ cs := by
  unfold tag? at read
  obtain ⟨⟨name, behind⟩, named, read⟩ := Option.bind_eq_some_iff.mp read
  obtain ⟨⟨attributes, closed, last⟩, given, read⟩ := Option.bind_eq_some_iff.mp read
  cases read
  obtain ⟨valid, ends⟩ := name?_parts named
  obtain ⟨known, ends'⟩ := attributes?_parts proper (allowed.suffix ends) given
  exact ⟨⟨valid, known⟩, ends'.trans ends⟩

theorem mapM_mem {α β : Type} {f : α → Option β} {l : List α} {r : List β} {b : β}
    (mapped : l.mapM f = some r) (member : b ∈ r) : ∃ a ∈ l, f a = some b := by
  have related := mapM_exact.mp mapped
  clear mapped
  induction related with
  | nil => cases member
  | cons first _ ih =>
    rcases List.mem_cons.mp member with rfl | later
    · exact ⟨_, List.mem_cons_self, first⟩
    · obtain ⟨a, among, found⟩ := ih later
      exact ⟨a, List.mem_cons_of_mem _ among, found⟩

theorem hasDuplicates_exact {α : Type} [DecidableEq α] {l : List α} :
    hasDuplicates l = false ↔ l.Nodup := by
  induction l with
  | nil => exact ⟨fun _ => List.nodup_nil, fun _ => rfl⟩
  | cons a rest ih =>
    rw [hasDuplicates, Bool.or_eq_false_iff, ih, List.nodup_cons, List.contains_eq_mem,
      decide_eq_false_iff_not]

theorem declared_proper (proper : d.Proper) {t : Tag} (valid : t.Proper) :
    ∀ a ∈ declared d t, Given.Proper a := by
  intro a member
  unfold declared at member
  rcases List.mem_append.mp member with given | default
  · obtain ⟨b, among, rfl⟩ := List.mem_map.mp given
    have known := valid.attributes b among
    dsimp only
    split
    · exact ⟨known.name, collapse_allowed known.allowed⟩
    · exact known
  · obtain ⟨decl, among, found⟩ := List.mem_filterMap.mp default
    obtain ⟨_, found⟩ := Option.ite_none_left_eq_some.mp found
    obtain ⟨value, known, rfl⟩ := Option.map_eq_some_iff.mp found
    have declProper := proper.attributes decl (List.mem_filter.mp among).1
    exact ⟨declProper.name, declProper.default value known⟩

theorem bindAll_proper {attributes : List (WrittenName × List Char)} (proper : s.Proper)
    (valid : ∀ a ∈ attributes, Given.Proper a) (bound : bindAll s attributes = some s') :
    s'.Proper := by
  induction attributes generalizing s with
  | nil =>
    cases bound
    exact proper
  | cons a rest ih =>
    have further {s : Scope} (proper : s.Proper) (bound : bindAll s rest = some s') : s'.Proper :=
      ih proper (fun b member => valid b (List.mem_cons_of_mem _ member)) bound
    obtain ⟨name, value⟩ := a
    unfold bindAll at bound
    split at bound
    · obtain ⟨may, bound⟩ := Option.ite_none_right_eq_some.mp bound
      refine further (proper.cons may ?_) bound
      rw [String.toList_ofList]
      exact (valid _ List.mem_cons_self).allowed
    · exact further proper bound

theorem bound?_unmarked {name : WrittenName} (unbound : name.bound? = none) (unmarked : name.mark = none) :
    name.label ≠ "xmlns" := by
  intro same
  unfold WrittenName.bound? at unbound
  rw [unmarked] at unbound
  dsimp only at unbound
  rw [if_pos same] at unbound
  cases unbound

theorem attributeName?_undeclared {written : WrittenName} (unbound : written.bound? = none)
    {name : Name} (read : s.attributeName? written = some name) (bare : name.space = none) :
    name.label ≠ "xmlns" := by
  unfold Scope.attributeName? at read
  split at read
  · obtain ⟨uri, _, rfl⟩ := Option.map_eq_some_iff.mp read
    cases bare
  · rename_i unmarked
    cases read
    exact bound?_unmarked unbound unmarked

theorem open?_parts {t : Tag} {name : Name} {attributes : List (Name × String)}
    (read : open? d s t = some (name, attributes, s')) :
    bindAll s (declared d t) = some s' ∧ s'.elementName? t.name = some name ∧
      ((declared d t).filter fun (name, _) => name.bound?.isNone).mapM
        (fun (name, value) => (s'.attributeName? name).map fun name => (name, String.ofList value))
        = some attributes ∧
      (attributes.map (·.1)).Nodup := by
  unfold open? at read
  obtain ⟨_, read⟩ := Option.ite_none_left_eq_some.mp read
  obtain ⟨inner, bound, read⟩ := Option.bind_eq_some_iff.mp read
  obtain ⟨named, found, read⟩ := Option.bind_eq_some_iff.mp read
  obtain ⟨given, mapped, read⟩ := Option.bind_eq_some_iff.mp read
  obtain ⟨single, read⟩ := Option.ite_none_left_eq_some.mp read
  cases read
  exact ⟨bound, found, mapped, hasDuplicates_exact.mp (Bool.not_eq_true _ ▸ single)⟩

theorem open?_proper (proper : d.Proper) (scope : s.Proper) {t : Tag} (valid : t.Proper) {name : Name}
    {attributes : List (Name × String)} (read : open? d s t = some (name, attributes, s')) :
    name.Proper ∧ (∀ a ∈ attributes, Attribute.Proper a) ∧ (attributes.map (·.1)).Nodup ∧
      s'.Proper := by
  obtain ⟨bound, found, mapped, distinct⟩ := open?_parts read
  have known := declared_proper proper valid
  have innerProper : s'.Proper := bindAll_proper scope known bound
  refine ⟨elementName?_proper innerProper valid.name found, fun a member => ?_, distinct, innerProper⟩
  · obtain ⟨⟨written, value⟩, among, read⟩ := mapM_mem mapped member
    obtain ⟨among, unbound⟩ := List.mem_filter.mp among
    obtain ⟨name, found, rfl⟩ := Option.map_eq_some_iff.mp read
    have valid := known _ among
    refine ⟨attributeName?_proper innerProper valid.name found,
      attributeName?_undeclared (Option.isNone_iff_eq_none.mp unbound) found, ?_⟩
    rw [String.toList_ofList]
    exact valid.allowed

/-! ### Content -/

def ContentKept (keep : Comments) (d : Doctype) (fuel : Nat) : Prop :=
  ∀ s opened cs pieces rest, Scope.Proper s → Allowed cs →
    content? keep d fuel s opened cs = some (pieces, rest) →
      (∀ p ∈ pieces, Piece.Proper p) ∧ rest <:+ cs

def ElementKept (keep : Comments) (d : Doctype) (fuel : Nat) : Prop :=
  ∀ s opened cs n rest, Scope.Proper s → Allowed cs →
    element? keep d fuel s opened cs = some (n, rest) → Node.Proper n ∧ rest <:+ cs

theorem comment?_proper {text : List Char} (allowed : Allowed cs) (read : comment? cs = some (text, rest)) :
    (Node.comment (String.ofList (Lines.unifyBreaks text)) "").Proper := by
  obtain ⟨single, textAllowed, _⟩ := comment?_parts read
  refine .comment ?_ ?_ ?_ .nil
  · rw [String.toList_ofList]
    exact singleHyphens_unified single
  · rw [String.toList_ofList]
    exact unifyBreaks_noReturn
  · rw [String.toList_ofList]
    exact unifyBreaks_allowed (textAllowed allowed)

theorem content?_kept (proper : d.Proper) (contents : ContentKept keep d fuel)
    (elements : ElementKept keep d fuel) : ContentKept keep d (fuel + 1) := by
  intro s opened cs pieces rest scope allowed read
  -- Behind what is read first the content goes on.
  have further {behind : List Char} {pieces : List Piece} {rest : List Char} (ends : behind <:+ cs)
      (read : content? keep d fuel s opened behind = some (pieces, rest)) :
      (∀ p ∈ pieces, p.Proper) ∧ rest <:+ cs := by
    obtain ⟨known, ends'⟩ := contents s opened behind pieces rest scope (allowed.suffix ends) read
    exact ⟨known, ends'.trans ends⟩
  unfold content? at read
  split at read
  · cases read
    exact ⟨fun _ member => absurd member List.not_mem_nil, List.suffix_rfl⟩
  · cases read
    exact ⟨fun _ member => absurd member List.not_mem_nil, List.suffix_rfl⟩
  · rename_i inside
    obtain ⟨⟨text, behind⟩, ended, read⟩ := Option.bind_eq_some_iff.mp read
    obtain ⟨⟨more, last⟩, follows, read⟩ := Option.bind_eq_some_iff.mp read
    have start : inside <:+ '<' :: '!' :: '-' :: '-' :: inside :=
      List.suffix_append ['<', '!', '-', '-'] inside
    obtain ⟨_, _, ends⟩ := comment?_parts ended
    obtain ⟨known, ends'⟩ := further (ends.trans start) follows
    dsimp only at read
    split at read
    · cases read
      exact ⟨List.forall_mem_cons.mpr ⟨.node (comment?_proper (allowed.suffix start) ended), known⟩, ends'⟩
    · cases read
      exact ⟨known, ends'⟩
  · rename_i inside _
    obtain ⟨_, opening, read⟩ := Option.bind_eq_some_iff.mp read
    obtain ⟨⟨text, behind⟩, ended, read⟩ := Option.bind_eq_some_iff.mp read
    obtain ⟨⟨more, last⟩, follows, read⟩ := Option.bind_eq_some_iff.mp read
    cases read
    have start := (after?_suffix opening).trans (List.suffix_append ['<', '!'] inside)
    obtain ⟨known, ends⟩ := further ((until?_suffix ended).trans start) follows
    exact ⟨List.forall_mem_cons.mpr ⟨.text (until?_allowed (allowed.suffix start) ended), known⟩, ends⟩
  · rename_i inside
    obtain ⟨behind, ended, read⟩ := Option.bind_eq_some_iff.mp read
    exact further ((instruction?_suffix ended).trans (List.suffix_append ['<', '?'] inside)) read
  · rename_i inside _ _ _ _
    obtain ⟨⟨node, behind⟩, element, read⟩ := Option.bind_eq_some_iff.mp read
    obtain ⟨⟨more, last⟩, follows, read⟩ := Option.bind_eq_some_iff.mp read
    cases read
    have start := List.suffix_cons '<' inside
    obtain ⟨valid, ends⟩ := elements s opened inside node behind scope (allowed.suffix start) element
    obtain ⟨known, ends'⟩ := further (ends.trans start) follows
    exact ⟨List.forall_mem_cons.mpr ⟨.node valid, known⟩, ends'⟩
  · rename_i inside
    obtain ⟨⟨reference, behind⟩, found, read⟩ := Option.bind_eq_some_iff.mp read
    obtain ⟨valid, ends⟩ := reference?_parts found
    have joined {inner : List Piece} (front : ∀ p ∈ inner, p.Proper)
        (read : ((content? keep d fuel s opened behind).bind fun found =>
          some (inner ++ found.1, found.2)) = some (pieces, rest)) :
        (∀ p ∈ pieces, p.Proper) ∧ rest <:+ '&' :: inside := by
      obtain ⟨⟨more, last⟩, follows, read⟩ := Option.bind_eq_some_iff.mp read
      cases read
      obtain ⟨known, ends'⟩ := further (ends.trans (List.suffix_cons _ _)) follows
      exact ⟨List.forall_mem_append.mpr ⟨front, known⟩, ends'⟩
    cases reference with
    | char c =>
      exact joined (List.forall_mem_singleton.mpr (.text (.cons valid .nil))) read
    | entity name =>
      dsimp only at read
      split at read
      · cases read
      · split at read
        · rename_i text known
          split at read
          · rename_i inner whole
            exact joined (contents s (name :: opened) text inner [] scope (proper.entity known) whole).1
              read
          · cases read
        · cases read
  · dsimp only at read
    obtain ⟨_, read⟩ := Option.ite_none_left_eq_some.mp read
    obtain ⟨⟨more, last⟩, follows, read⟩ := Option.bind_eq_some_iff.mp read
    cases read
    obtain ⟨known, ends⟩ := further (List.drop_suffix _ _) follows
    exact ⟨List.forall_mem_cons.mpr ⟨.text (allowed.subset (List.takeWhile_subset _)), known⟩, ends⟩

-- The end tag of an element at the start of a text, and the text behind it.
def EndTag (name : WrittenName) (cs rest : List Char) : Prop :=
  ∃ inside last, after? "</" cs = some inside ∧ name? inside = some (name, last) ∧
    after? ">" (skipSpaces last) = some rest

theorem EndTag.suffix {name : WrittenName} (ends : EndTag name cs rest) : rest <:+ cs := by
  obtain ⟨inside, last, slash, named, closed⟩ := ends
  calc rest <:+ _ := after?_suffix closed
    _ <:+ _ := skipSpaces_suffix
    _ <:+ inside := (name?_parts named).2
    _ <:+ cs := after?_suffix slash

-- An element is what its tag opens, around the pieces of its content where it has any.
theorem element?_parts (read : element? keep d fuel s opened cs = some (n, rest)) :
    ∃ t behind name attributes inner pieces, tag? d cs = some (t, behind) ∧
      open? d s t = some (name, attributes, inner) ∧
      n = .element name attributes (String.ofList (assemble pieces).1) (assemble pieces).2 "" ∧
      (t.closed = true ∧ pieces = [] ∧ rest = behind ∨ t.closed = false ∧ ∃ less ending, fuel = less + 1 ∧
        content? keep d less inner opened behind = some (pieces, ending) ∧ EndTag t.name ending rest) := by
  cases fuel with
  | zero => cases read
  | succ fuel =>
    unfold element? at read
    obtain ⟨⟨t, behind⟩, tagged, read⟩ := Option.bind_eq_some_iff.mp read
    obtain ⟨⟨name, attributes, inner⟩, entered, read⟩ := Option.bind_eq_some_iff.mp read
    dsimp only at read
    split at read
    · rename_i closed
      cases read
      exact ⟨t, rest, name, attributes, inner, [], tagged, entered, rfl, .inl ⟨closed, rfl, rfl⟩⟩
    · rename_i unclosed
      obtain ⟨⟨pieces, ending⟩, content, read⟩ := Option.bind_eq_some_iff.mp read
      obtain ⟨inside, slash, read⟩ := Option.bind_eq_some_iff.mp read
      obtain ⟨⟨last, behind'⟩, named, read⟩ := Option.bind_eq_some_iff.mp read
      obtain ⟨_, angle, read⟩ := Option.bind_eq_some_iff.mp read
      obtain ⟨same, read⟩ := Option.ite_none_right_eq_some.mp read
      cases read
      cases same
      exact ⟨t, behind, name, attributes, inner, pieces, tagged, entered, rfl,
        .inr ⟨Bool.not_eq_true _ ▸ unclosed, fuel, ending, rfl, content, inside, behind', slash, named, angle⟩⟩

theorem element?_kept (proper : d.Proper) (contents : ContentKept keep d fuel) :
    ElementKept keep d (fuel + 1) := by
  intro s opened cs n rest scope allowed read
  obtain ⟨t, behind, name, attributes, inner, pieces, tagged, entered, rfl, content⟩ := element?_parts read
  obtain ⟨valid, ends⟩ := tag?_parts proper allowed tagged
  obtain ⟨named, given, distinct, innerProper⟩ := open?_proper proper scope valid entered
  have known : (∀ p ∈ pieces, p.Proper) ∧ rest <:+ behind := by
    rcases content with ⟨_, rfl, rfl⟩ | ⟨_, less, ending, same, read, last⟩
    · exact ⟨fun _ member => absurd member List.not_mem_nil, List.suffix_rfl⟩
    · cases same
      obtain ⟨known, ends'⟩ := contents inner opened behind pieces ending innerProper (allowed.suffix ends) read
      exact ⟨known, last.suffix.trans ends'⟩
  obtain ⟨text, nodes⟩ := assemble_proper known.1
  exact ⟨.element named given distinct (by rwa [String.toList_ofList]) nodes .nil, known.2.trans ends⟩

theorem markup_kept (proper : d.Proper) : ContentKept keep d fuel ∧ ElementKept keep d fuel := by
  induction fuel with
  | zero => exact ⟨fun _ _ _ _ _ _ _ read => (nomatch read), fun _ _ _ _ _ _ _ read => (nomatch read)⟩
  | succ fuel ih => exact ⟨content?_kept proper ih.1 ih.2, element?_kept proper ih.1⟩

/-! ### Documents -/

theorem skipMisc_suffix (read : skipMisc fuel cs = some rest) : rest <:+ cs := by
  induction fuel generalizing cs with
  | zero =>
    cases read
    exact List.suffix_rfl
  | succ fuel ih =>
    unfold skipMisc at read
    dsimp only at read
    split at read
    · rename_i opening
      obtain ⟨⟨_, behind⟩, ended, read⟩ := Option.bind_eq_some_iff.mp read
      exact (((ih read).trans (comment?_parts ended).2.2).trans (after?_suffix opening)).trans
        skipSpaces_suffix
    · rename_i opening _
      obtain ⟨behind, ended, read⟩ := Option.bind_eq_some_iff.mp read
      exact (((ih read).trans (instruction?_suffix ended)).trans (after?_suffix opening)).trans
        skipSpaces_suffix
    · cases read
      exact skipSpaces_suffix

theorem head?_suffix (read : head? cs = some rest) : rest <:+ cs := by
  unfold head? at read
  split at read
  · rename_i opening
    split at read
    · obtain ⟨⟨_, behind⟩, declared, rfl⟩ := Option.map_eq_some_iff.mp read
      exact (declaration?_suffix declared).trans (after?_suffix opening)
    · cases read
      exact List.suffix_rfl
  · cases read
    exact List.suffix_rfl

theorem prolog?_parts (allowed : Allowed cs) (read : prolog? cs = some (d, rest)) :
    d.Proper ∧ rest <:+ cs := by
  unfold prolog? at read
  obtain ⟨_, headed, read⟩ := Option.bind_eq_some_iff.mp read
  obtain ⟨_, skipped, read⟩ := Option.bind_eq_some_iff.mp read
  have ends := (skipMisc_suffix skipped).trans (head?_suffix headed)
  dsimp only at read
  split at read
  · rename_i opening
    have ends := (after?_suffix opening).trans ends
    obtain ⟨⟨found, behind⟩, typed, read⟩ := Option.bind_eq_some_iff.mp read
    obtain ⟨_, skipped', read⟩ := Option.bind_eq_some_iff.mp read
    cases read
    obtain ⟨proper, ends'⟩ := doctype?_parts (allowed.suffix ends) typed
    exact ⟨proper, ((skipMisc_suffix skipped').trans ends').trans ends⟩
  · cases read
    exact ⟨.empty, ends⟩

-- A document is what comes before its root, and the root.
theorem parse?_parts (read : parse? keep cs = some n) :
    ∃ text d inside fuel behind, Allowed text ∧ prolog? text = some (d, '<' :: inside) ∧
      element? keep d fuel .start [] inside = some (n, behind) := by
  unfold parse? at read
  obtain ⟨checked, read⟩ := Option.ite_none_left_eq_some.mp read
  obtain ⟨⟨d, start⟩, before, read⟩ := Option.bind_eq_some_iff.mp read
  obtain ⟨inside, opening, read⟩ := Option.bind_eq_some_iff.mp read
  obtain ⟨⟨root, behind⟩, element, read⟩ := Option.bind_eq_some_iff.mp read
  obtain ⟨last, ended, read⟩ := Option.bind_eq_some_iff.mp read
  obtain ⟨_, read⟩ := Option.ite_none_right_eq_some.mp read
  cases read
  rw [after?_exact.mp opening] at before
  refine ⟨_, d, inside, _, behind, unifyBreaks_allowed ?_, before, element⟩
  simpa [Allowed] using checked

theorem parse?_proper (read : parse? keep cs = some n) : n.Proper ∧ n.tail = "" := by
  obtain ⟨text, d, inside, fuel, behind, allowed, before, element⟩ := parse?_parts read
  obtain ⟨proper, ends⟩ := prolog?_parts allowed before
  have start := (List.suffix_cons '<' inside).trans ends
  refine ⟨((markup_kept proper).2 _ _ _ _ _ .start (allowed.suffix start) element).1, ?_⟩
  obtain ⟨_, _, _, _, _, _, _, _, rfl, _⟩ := element?_parts element
  rfl

end InlineProject.Xml
