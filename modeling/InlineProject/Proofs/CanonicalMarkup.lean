import Mathlib
import InlineProject.Proofs.MarkupDocument
import InlineProject.Xml.Canonical
/-!
The canonical form of a tree is a document again, and reading it gives the tree that was written. The one
exception is a root in the namespace of the language itself: its canonical form makes that namespace the
default one, which no document may do.
-/

namespace InlineProject.Xml

variable {marks : Marks} {default : Option String} {keep : Comments} {n : Node} {uri mark : String}
  {name : Name} {attributes : List (Name × String)} {t : String} {children : List Node}

/-! ### Indentation -/

theorem Node.Proper.tailAllowed (proper : n.Proper) : Allowed n.tail.toList := by
  cases proper with
  | comment _ _ _ behind => exact behind
  | element _ _ _ _ _ behind => exact behind

theorem margin_allowed {level : Nat} : Allowed (margin level).toList := by
  rw [margin, String.toList_ofList]
  refine .cons (by decide) fun c member => ?_
  rw [List.eq_of_mem_replicate member]
  decide

theorem settle_allowed {by_ : String} (blank : Allowed by_.toList) (allowed : Allowed t.toList) :
    Allowed (settle by_ t).toList := by
  unfold settle
  split
  · exact blank
  · exact allowed

theorem settleLast_proper {by_ : String} {nodes : List Node} (blank : Allowed by_.toList)
    (proper : ∀ n ∈ nodes, n.Proper) : ∀ n ∈ settleLast by_ nodes, n.Proper := by
  induction nodes using settleLast.induct with
  | case1 => exact proper
  | case2 n =>
    intro m member
    rw [List.mem_singleton.mp member]
    have last := proper n List.mem_cons_self
    exact last.withTail (settle_allowed blank last.tailAllowed)
  | case3 n rest _ ih =>
    intro m member
    rw [settleLast] at member
    · rcases List.mem_cons.mp member with rfl | later
      · exact proper m List.mem_cons_self
      · exact ih (fun n member => proper n (List.mem_cons_of_mem _ member)) m later
    · assumption

theorem indentAll_map {level : Nat} {nodes : List Node} :
    indentAll level nodes = nodes.map fun n => (n.indent level).withTail (settle (margin level) n.tail) := by
  induction nodes with
  | nil => rfl
  | cons n nodes ih => rw [indentAll, ih, List.map_cons]

theorem indent_proper (proper : n.Proper) (level : Nat) : (n.indent level).Proper := by
  induction proper generalizing level with
  | comment single quiet inside behind => exact .comment single quiet inside behind
  | @element name attributes text children tail named given distinct inside below behind ih =>
    rw [Node.indent]
    split
    · exact .element named given distinct inside below behind
    · refine .element named given distinct (settle_allowed margin_allowed inside)
        (settleLast_proper margin_allowed fun m member => ?_) behind
      rw [indentAll_map] at member
      obtain ⟨n, among, rfl⟩ := List.mem_map.mp member
      exact (ih n among _).withTail (settle_allowed margin_allowed (below n among).tailAllowed)

theorem indent_kept {level : Nat} :
    (n.indent level).name? = n.name? ∧ (n.indent level).tail = n.tail := by
  cases n with
  | comment => exact ⟨rfl, rfl⟩
  | element name attributes text children tail =>
    rw [Node.indent]
    split <;> exact ⟨rfl, rfl⟩

/-! ### The default namespace -/

theorem withoutSpaceAll_map {nodes : List Node} :
    withoutSpaceAll uri nodes = nodes.map (Node.withoutSpace uri) := by
  induction nodes with
  | nil => rfl
  | cons n nodes ih => rw [withoutSpaceAll, ih, List.map_cons]

theorem withoutSpace_proper (proper : n.Proper) : (n.withoutSpace uri).Proper := by
  induction proper with
  | comment single quiet inside behind => exact .comment single quiet inside behind
  | @element name attributes text children tail named given distinct inside below behind ih =>
    rw [Node.withoutSpace]
    refine .element ?_ given distinct inside ?_ behind
    · split
      · exact ⟨named.label, fun _ impossible => absurd impossible (by simp)⟩
      · exact named
    · rw [withoutSpaceAll_map]
      intro m member
      obtain ⟨n, among, rfl⟩ := List.mem_map.mp member
      exact ih n among

theorem withoutSpace_kept : (n.withoutSpace uri).name?.isSome = n.name?.isSome ∧
    (n.withoutSpace uri).label = n.label ∧ (n.withoutSpace uri).tail = n.tail := by
  cases n with
  | comment => exact ⟨rfl, rfl, rfl⟩
  | element name attributes text children tail =>
    refine ⟨rfl, ?_, rfl⟩
    rw [Node.withoutSpace]
    simp only [Node.label, Node.name?, Option.map_some, Option.getD_some]
    split <;> rfl

theorem rootSpace?_name (found : n.rootSpace? = some uri) :
    ∃ name, n.name? = some name ∧ name.space = some uri := by
  unfold Node.rootSpace? at found
  split at found
  · rename_i space spaced
    obtain ⟨name, named, spaced⟩ := Option.bind_eq_some_iff.mp spaced
    obtain ⟨_, found⟩ := Option.ite_none_left_eq_some.mp found
    cases found
    exact ⟨name, named, spaced⟩
  · cases found

/-! ### Documents of trees -/

-- The declarations of all prefixes, then that of the default namespace.
def bindingsOf (marks : Marks) (default : Option String) : List (String × String) :=
  (marks.mergeSort fun a b => a.2 ≤ b.2).map Prod.swap ++ default.toList.map fun uri => ("", uri)

-- The text of a tree whose root also declares a default namespace.
def Node.document (default : Option String) (n : Node) : List Char :=
  n.write (n.collectMarks []) (writtenAttributes ((bindingsOf (n.collectMarks []) default).map declaration))

def Node.adopted (n : Node) : Node :=
  match n.rootSpace? with
  | some uri => n.withoutSpace uri
  | none => n

theorem declarations_written (series : Series marks) :
    marks.declarations
      = writtenAttributes (((marks.mergeSort fun a b => a.2 ≤ b.2).map Prod.swap).map declaration) := by
  rw [Marks.declarations, writtenAttributes, List.flatMap_map, List.flatMap_map]
  refine List.flatMap_congr fun b member => ?_
  have label := (series.entry (List.mem_mergeSort.mp member)).label
  rw [declaration, declaredName, Prod.fst_swap, if_neg label.ne_empty]
  rfl

theorem names_proper (proper : n.Proper) : ∀ name ∈ n.names, name.Proper := by
  induction proper with
  | comment => exact fun _ member => absurd member List.not_mem_nil
  | element named given _ _ _ _ ih =>
    intro m member
    rw [Node.names] at member
    rcases List.mem_append.mp member with own | below
    · rcases List.mem_cons.mp own with rfl | attributed
      · exact named
      · obtain ⟨a, among, rfl⟩ := List.mem_map.mp attributed
        exact (given a among).name
    · obtain ⟨n, child, among⟩ := mem_namesAll.mp below
      exact ih n child m among

theorem toText_document (proper : n.Proper) : n.toText = n.document none := by
  rw [Node.toText, Node.document, bindingsOf, Option.toList_none, List.map_nil, List.append_nil,
    declarations_written (collectMarks_series (names_proper proper))]

theorem addDefault_document (proper : n.Proper) (element : n.name?.isSome = true) :
    (n.addDefault uri).toText = n.document (some uri) := by
  have series := collectMarks_series (names_proper proper)
  cases n with
  | comment => cases element
  | element name attributes text children tail =>
    have marked : (Node.element name ((⟨none, "xmlns"⟩, uri) :: attributes) text children tail).collectMarks []
        = (Node.element name attributes text children tail).collectMarks [] := by
      simp [Node.collectMarks, addName]
    rw [Node.addDefault, Node.toText, Node.document, marked, declarations_written series, bindingsOf]
    generalize (Node.element name attributes text children tail).collectMarks [] = marks
    have bare : marks.write ⟨none, "xmlns"⟩ = "xmlns".toList := rfl
    have named : (declaredName "").chars = "xmlns".toList := rfl
    rw [Node.write, Node.write]
    simp [writtenAttributes, bare, declaration, named]

theorem canonical_document (proper : n.Proper) (element : n.name?.isSome = true) :
    n.canonical = (n.indent 0).adopted.document n.rootSpace? := by
  have same : (n.indent 0).rootSpace? = n.rootSpace? := by
    rw [Node.rootSpace?, indent_kept.1]
    rfl
  unfold Node.canonical Node.adoptSpace Node.adopted
  rw [same]
  cases space : n.rootSpace? with
  | none => exact toText_document (indent_proper proper 0)
  | some uri =>
    refine addDefault_document (withoutSpace_proper (indent_proper proper 0)) ?_
    rw [withoutSpace_kept.1, indent_kept.1]
    exact element

/-! ### Reading a document of a tree -/

theorem lookup_of_mem {entries : List (String × String)} (distinct : (entries.map Prod.fst).Nodup)
    (member : (mark, uri) ∈ entries) : entries.lookup mark = some uri := by
  induction entries with
  | nil => cases member
  | cons entry entries ih =>
    obtain ⟨key, value⟩ := entry
    rw [List.map_cons, List.nodup_cons] at distinct
    rcases List.mem_cons.mp member with same | later
    · cases same
      exact List.lookup_cons_self
    · have other : mark ≠ key := by
        rintro rfl
        exact distinct.1 (List.mem_map.mpr ⟨_, later, rfl⟩)
      rw [List.lookup_cons, beq_false_of_ne other]
      exact ih distinct.2 later

theorem lookup_absent {entries : List (String × String)} (absent : mark ∉ entries.map Prod.fst) :
    entries.lookup mark = none := by
  rw [List.lookup_eq_none_iff]
  intro entry member
  rw [bne_iff_ne]
  rintro rfl
  exact absent (List.mem_map_of_mem member)

theorem mem_bindingsOf {b : String × String} :
    b ∈ bindingsOf marks default ↔ (b.2, b.1) ∈ marks ∨ b.1 = "" ∧ default = some b.2 := by
  obtain ⟨mark, uri⟩ := b
  simp [bindingsOf, eq_comm, and_comm]

theorem bindingsOf_single (series : Series marks) : ((bindingsOf marks default).map Prod.fst).Nodup := by
  have front : ((marks.mergeSort fun a b => a.2 ≤ b.2).map Prod.swap).map Prod.fst
      = (marks.mergeSort fun a b => a.2 ≤ b.2).map Prod.snd := by
    rw [List.map_map]
    rfl
  have sorted : ((marks.mergeSort fun a b => a.2 ≤ b.2).map Prod.snd).Nodup :=
    ((List.mergeSort_perm marks _).map Prod.snd).nodup_iff.mpr series.distinct
  rw [bindingsOf, List.map_append, front, List.nodup_append]
  refine ⟨sorted, ?_, ?_⟩
  · cases default <;> simp
  · rintro mark among _ declared rfl
    obtain ⟨⟨uri, mark⟩, member, rfl⟩ := List.mem_map.mp among
    have label := (series.entry (List.mem_mergeSort.mp member)).label
    obtain ⟨b, last, same⟩ := List.mem_map.mp declared
    obtain ⟨_, _, rfl⟩ := List.mem_map.mp last
    exact label.ne_empty same.symm

theorem bindingsOf_may (series : Series marks)
    (usable : ∀ uri, default = some uri → Space uri ∧ uri ≠ xmlSpace) :
    ∀ b ∈ bindingsOf marks default, mayBind b.1 b.2 = true := by
  intro b member
  rw [mayBind_exact]
  rcases mem_bindingsOf.mp member with prefixed | ⟨bare, chosen⟩
  · have entry := series.entry prefixed
    refine ⟨entry.undeclared, entry.space.undeclared, ?_, ?_, entry.space.noBrace⟩
    · exact iff_of_false entry.unreserved entry.other
    · exact fun nothing => absurd nothing entry.space.some
  · obtain ⟨space, other⟩ := usable b.2 chosen
    rw [bare]
    refine ⟨by decide, space.undeclared, ?_, fun _ => rfl, space.noBrace⟩
    exact iff_of_false (by decide) other

theorem bindingsOf_reads (series : Series marks)
    (usable : ∀ uri, default = some uri → Space uri ∧ uri ≠ xmlSpace) :
    Scope.Reads ((bindingsOf marks default).reverse ++ .start) marks default := by
  have distinct : ((bindingsOf marks default).reverse.map Prod.fst).Nodup := by
    rw [List.map_reverse, List.nodup_reverse]
    exact bindingsOf_single series
  have found {mark uri : String} (member : (mark, uri) ∈ bindingsOf marks default) :
      ((bindingsOf marks default).reverse ++ Scope.start).lookup mark = some uri := by
    rw [List.lookup_append, lookup_of_mem distinct (List.mem_reverse.mpr member)]
    rfl
  have absent {mark : String} (free : ∀ uri, (mark, uri) ∉ bindingsOf marks default) :
      ((bindingsOf marks default).reverse ++ Scope.start).lookup mark = Scope.start.lookup mark := by
    rw [List.lookup_append, lookup_absent]
    · rfl
    · intro member
      obtain ⟨⟨_, uri⟩, among, rfl⟩ := List.mem_map.mp member
      exact free uri (List.mem_reverse.mp among)
  refine ⟨fun uri mark known => ?_, ?_, ?_, ?_⟩
  · exact found (mem_bindingsOf.mpr (.inl (lookup_mem known)))
  · rw [absent]
    · rfl
    · intro uri member
      rcases mem_bindingsOf.mp member with prefixed | ⟨bare, _⟩
      · exact (series.entry prefixed).unreserved rfl
      · have impossible : "xml" = "" := bare
        exact absurd impossible (by decide)
  · cases default with
    | none =>
      rw [absent]
      · rfl
      · intro uri member
        rcases mem_bindingsOf.mp member with prefixed | ⟨_, impossible⟩
        · exact (series.entry prefixed).label.ne_empty rfl
        · cases impossible
    | some uri => exact found (mem_bindingsOf.mpr (.inr ⟨rfl, rfl⟩))
  · intro nothing
    exact (usable "" nothing).1.some rfl

theorem document_rooted (default : Option String) (proper : (Node.element name attributes t children "").Proper)
    (usable : ∀ uri, default = some uri → Space uri) :
    Rooted ((Node.element name attributes t children "").collectMarks [])
      (bindingsOf ((Node.element name attributes t children "").collectMarks []) default) name attributes t
      children := by
  have series := collectMarks_series (names_proper proper)
  have covered (m : Name) (member : m ∈ (Node.element name attributes t children "").names) :
      m.Covered ((Node.element name attributes t children "").collectMarks []) :=
    collectMarks_covered member
  generalize (Node.element name attributes t children "").collectMarks [] = marks at series covered
  rw [Node.names] at covered
  cases proper with
  | element named given distinct inside below _ =>
    refine ⟨⟨series, named, ?_, given, ?_, ?_⟩, ?_, inside, below, ?_⟩
    · exact covered name (List.mem_append_left _ List.mem_cons_self)
    · intro a member
      exact covered a.1 (List.mem_append_left _ (List.mem_cons_of_mem _ (List.mem_map_of_mem member)))
    · intro b member
      rcases mem_bindingsOf.mp member with prefixed | ⟨bare, _⟩
      · exact .inr (series.entry prefixed).label
      · exact .inl bare
    · intro b member
      rcases mem_bindingsOf.mp member with prefixed | ⟨_, chosen⟩
      · exact (series.entry prefixed).space.allowed
      · exact (usable b.2 chosen).allowed
    · intro n member m among
      exact covered m (List.mem_append_right _ (mem_namesAll.mpr ⟨n, member, among⟩))

theorem parse?_document (proper : n.Proper) (element : n.name?.isSome = true) (tail : n.tail = "")
    (usable : ∀ uri, default = some uri → Space uri ∧ uri ≠ xmlSpace) :
    parse? keep (n.document default) = some (n.unified.reread keep default) := by
  cases n with
  | comment => cases element
  | element name attributes text children last =>
    cases tail
    have rooted := document_rooted default proper fun uri chosen => (usable uri chosen).1
    refine parse?_written rooted ⟨rooted.toTagged, ?_, bindingsOf_may rooted.series usable,
      bindingsOf_single rooted.series, bindingsOf_reads rooted.series usable⟩
    cases proper with
    | element _ _ distinct _ _ _ => exact distinct

theorem parse?_document_refused (proper : n.Proper) (element : n.name?.isSome = true) (tail : n.tail = "")
    (space : Space xmlSpace) : parse? keep (n.document (some xmlSpace)) = none := by
  cases n with
  | comment => cases element
  | element name attributes text children last =>
    cases tail
    have rooted := document_rooted (some xmlSpace) proper fun uri chosen =>
      Option.some.inj chosen ▸ space
    refine parse?_refused rooted (mem_bindingsOf.mpr (.inr ⟨rfl, rfl⟩) : ("", xmlSpace) ∈ _) ?_
    decide +kernel

theorem document_begins (proper : n.Proper) (element : n.name?.isSome = true) (tail : n.tail = "")
    (usable : ∀ uri, default = some uri → Space uri) : ∃ cs, n.document default = '<' :: cs ∧ Begins cs := by
  cases n with
  | comment => cases element
  | element name attributes text children last =>
    cases tail
    have rooted := document_rooted default proper usable
    exact ⟨_, write_root rooted, (elementText_begins rooted.toTagged _ _ _).1⟩

/-! ### Canonical forms -/

-- A tree as a root: an element with nothing behind it.
structure Node.Root (n : Node) : Prop where
  proper : n.Proper
  element : n.name?.isSome = true
  last : n.tail = ""

-- The tree that a canonical form is written from.
def Node.settled (n : Node) : Node := (n.indent 0).adopted

theorem adopted_kept : n.adopted.name?.isSome = n.name?.isSome ∧ n.adopted.label = n.label ∧
    n.adopted.tail = n.tail := by
  unfold Node.adopted
  split
  · exact withoutSpace_kept
  · exact ⟨rfl, rfl, rfl⟩

theorem adopted_proper (proper : n.Proper) : n.adopted.Proper := by
  unfold Node.adopted
  split
  · exact withoutSpace_proper proper
  · exact proper

theorem Node.Root.settled (root : n.Root) : n.settled.Root := by
  obtain ⟨element, _, last⟩ := adopted_kept (n := n.indent 0)
  refine ⟨adopted_proper (indent_proper root.proper 0), ?_, ?_⟩
  · rw [Node.settled, element, indent_kept.1]
    exact root.element
  · rw [Node.settled, last, indent_kept.2]
    exact root.last

theorem settled_label : n.settled.label = n.label := by
  rw [Node.settled, adopted_kept.2.1, Node.label, indent_kept.1, Node.label]

theorem reread_label (element : n.name?.isSome = true) :
    (n.unified.reread keep default).label = n.label := by
  cases n with
  | comment => cases element
  | element => rfl

theorem Node.Root.space (root : n.Root) (uri : String) (found : n.rootSpace? = some uri) : Space uri := by
  obtain ⟨name, named, spaced⟩ := rootSpace?_name found
  cases root.proper with
  | comment => cases named
  | element valid _ _ _ _ _ =>
    cases named
    exact valid.space uri spaced

theorem canonical_begins (root : n.Root) : ∃ cs, n.canonical = '<' :: cs ∧ Begins cs := by
  have settled := root.settled
  rw [canonical_document root.proper root.element]
  exact document_begins settled.proper settled.element settled.last root.space

-- The canonical form of a tree is read as the tree that it was written from.
theorem parse?_canonical (root : n.Root) (other : n.rootSpace? ≠ some xmlSpace) :
    parse? keep n.canonical = some (n.settled.unified.reread keep n.rootSpace?) := by
  have settled := root.settled
  rw [canonical_document root.proper root.element]
  refine parse?_document settled.proper settled.element settled.last fun uri found => ?_
  exact ⟨root.space uri found, fun same => other (same ▸ found)⟩

theorem parse?_canonical_refused (root : n.Root) (reserved : n.rootSpace? = some xmlSpace) :
    parse? keep n.canonical = none := by
  have settled := root.settled
  rw [canonical_document root.proper root.element, reserved]
  exact parse?_document_refused settled.proper settled.element settled.last (root.space _ reserved)

end InlineProject.Xml
