import Mathlib
import InlineProject.Proofs.MarkupContent
/-!
A written tree as a document. Reading a document first makes every line break a line feed, which changes
the texts of a tree and nothing else; then the document is the tree.
-/

namespace InlineProject.Xml

open Lines

variable {marks : Marks} {s : Scope} {default : Option String} {keep : Comments} {fuel : Nat} {c : Char}
  {cs rest text : List Char} {n : Node} {bindings : List (String × String)} {name : Name}
  {attributes : List (Name × String)}

/-! ### Line breaks -/

-- A text that does not go on a line break.
def Fresh (cs : List Char) : Prop := '\n' ∉ cs.head?

theorem Fresh.cons (other : c ≠ '\n') : Fresh (c :: cs) := by
  rintro ⟨⟩
  exact other rfl

theorem unifyBreaks_append (fresh : Fresh rest) :
    unifyBreaks (cs ++ rest) = unifyBreaks cs ++ unifyBreaks rest := by
  induction cs using unifyBreaks.induct with
  | case1 => rfl
  | case2 cs ih =>
    rw [List.cons_append, List.cons_append, unifyBreaks, unifyBreaks, ih]
    rfl
  | case3 cs alone ih =>
    have first : unifyBreaks ('\r' :: cs) = '\n' :: unifyBreaks cs := by
      rw [unifyBreaks]
      exact alone
    rw [List.cons_append, first, unifyBreaks, ih]
    · rfl
    · intro more split
      cases cs with
      | nil =>
        rw [List.nil_append] at split
        exact fresh (split ▸ rfl)
      | cons c cs => exact alone cs (by rw [(List.cons.inj split).1])
  | case4 c cs _ other ih =>
    have other : c ≠ '\r' := other
    rw [List.cons_append, unifyBreaks_cons other, unifyBreaks_cons other, ih]
    rfl

theorem escapeText_fresh (other : c ≠ '\n') : Fresh (escapeText c ++ cs) := by
  have escape := escapeText_escape c
  generalize escapeText c = written at escape ⊢
  cases escape with
  | plain => exact .cons other
  | reference => exact .cons (by decide)

theorem escapeText_quiet (other : c ≠ '\r') : '\r' ∉ escapeText c := by
  have escape := escapeText_escape c
  generalize escapeText c = written at escape ⊢
  cases escape with
  | plain => simpa using Ne.symm other
  | reference _ quiet _ => simpa using quiet.2

theorem unifyBreaks_escaped :
    unifyBreaks (text.flatMap escapeText) = (unifyBreaks text).flatMap escapeText := by
  induction text using unifyBreaks.induct with
  | case1 => rfl
  | case2 cs ih =>
    have pair : ('\r' :: '\n' :: cs).flatMap escapeText = '\r' :: '\n' :: cs.flatMap escapeText := rfl
    rw [pair, unifyBreaks, unifyBreaks, ih]
    rfl
  | case3 cs alone ih =>
    have single : ('\r' :: cs).flatMap escapeText = ['\r'] ++ cs.flatMap escapeText := rfl
    have fresh : Fresh (cs.flatMap escapeText) := by
      cases cs with
      | nil =>
        intro impossible
        cases impossible
      | cons c cs => exact escapeText_fresh fun same => alone cs (by rw [same])
    have first : unifyBreaks ('\r' :: cs) = '\n' :: unifyBreaks cs := by
      rw [unifyBreaks]
      exact alone
    rw [single, unifyBreaks_append fresh, ih, first]
    rfl
  | case4 c cs _ other ih =>
    have other : c ≠ '\r' := other
    rw [List.flatMap_cons, unifyBreaks_quiet (escapeText_quiet other), unifyBreaks_cons other, ih]
    rfl

theorem unifyBreaksString_toList {t : String} : (unifyBreaksString t).toList = unifyBreaks t.toList :=
  String.toList_ofList

theorem unifyBreaks_escapedText {t : String} (fresh : Fresh rest) :
    unifyBreaks (escapedText t ++ rest) = escapedText (unifyBreaksString t) ++ unifyBreaks rest := by
  rw [unifyBreaks_append fresh, escapedText, escapedText, unifyBreaks_escaped, unifyBreaksString_toList]

/-! ### Trees with unified line breaks -/

mutual
def Node.unified : Node → Node
  | .comment text tail => .comment (unifyBreaksString text) (unifyBreaksString tail)
  | .element name attributes text children tail =>
      .element name attributes (unifyBreaksString text) (unifiedAll children) (unifyBreaksString tail)

def unifiedAll : List Node → List Node
  | [] => []
  | n :: rest => n.unified :: unifiedAll rest
end

theorem unifiedAll_map {nodes : List Node} : unifiedAll nodes = nodes.map Node.unified := by
  induction nodes with
  | nil => rfl
  | cons n nodes ih => rw [unifiedAll, ih, List.map_cons]

mutual
theorem Node.unified_names : (n : Node) → n.unified.names = n.names
  | .comment _ _ => rfl
  | .element name attributes _ children _ => by
    rw [Node.unified, Node.names, Node.names, unifiedAll_names]

theorem unifiedAll_names : (nodes : List Node) → namesAll (unifiedAll nodes) = namesAll nodes
  | [] => rfl
  | n :: rest => by rw [unifiedAll, namesAll, namesAll, Node.unified_names, unifiedAll_names]
end

theorem Node.Proper.unified (proper : n.Proper) : n.unified.Proper := by
  have allowed {t : String} (before : Allowed t.toList) : Allowed (unifyBreaksString t).toList := by
    rw [unifyBreaksString_toList]
    exact unifyBreaks_allowed before
  induction proper with
  | comment single quiet inside behind =>
    refine .comment ?_ ?_ (allowed inside) (allowed behind)
    · rw [unifyBreaksString_toList]
      exact singleHyphens_unified single
    · rw [unifyBreaksString_toList]
      exact unifyBreaks_noReturn
  | @element name attributes text children tail named given distinct inside _ behind ih =>
    refine .element named given distinct (allowed inside) ?_ (allowed behind)
    rw [unifiedAll_map]
    intro m member
    obtain ⟨n, among, rfl⟩ := List.mem_map.mp member
    exact ih n among

/-! ### Written texts -/

theorem Label.quiet {s : String} (label : Label s) : '\r' ∉ s.toList := fun member =>
  absurd (continuesName_bounds (label.continues '\r' member)).1 (by decide)

theorem chars_quiet {w : WrittenName} (proper : w.Proper) : '\r' ∉ w.chars := by
  obtain ⟨mark, label⟩ := w
  cases mark with
  | none => exact proper.label.quiet
  | some mark =>
    rw [WrittenName.chars]
    simp only [List.mem_append, List.mem_cons, not_or]
    exact ⟨(proper.mark mark rfl).quiet, by decide, proper.label.quiet⟩

theorem writtenAttributes_quiet {given : List (WrittenName × String)} (proper : ∀ a ∈ given, a.1.Proper) :
    '\r' ∉ writtenAttributes given := by
  intro member
  obtain ⟨a, among, inside⟩ := List.mem_flatMap.mp member
  have name := chars_quiet (proper a among)
  have value := (escapedValue_quiet a.2).2
  simp [attributeText, name, value] at inside

theorem escape_allowed {plain : Char → Prop} {written : List Char} (escape : Escape plain c written)
    (allowed : isAllowed c = true) : Allowed written := by
  cases escape with
  | plain => exact .cons allowed .nil
  | reference _ _ name =>
    have amp : isAllowed '&' = true := by decide
    exact .cons amp name

theorem escapedText_allowed {t : String} (allowed : Allowed t.toList) : Allowed (escapedText t) := by
  intro c member
  obtain ⟨x, among, inside⟩ := List.mem_flatMap.mp member
  exact escape_allowed (escapeText_escape x) (allowed x among) c inside

theorem escapedValue_allowed {t : String} (allowed : Allowed t.toList) : Allowed (escapedValue t) := by
  intro c member
  obtain ⟨x, among, inside⟩ := List.mem_flatMap.mp member
  exact escape_allowed (escapeValue_escape x) (allowed x among) c inside

theorem attributeText_allowed {name : List Char} {value : String} (named : Allowed name)
    (allowed : Allowed value.toList) : Allowed (attributeText name value) := by
  have front : Allowed [' '] := by decide
  have middle : Allowed ['=', '\x22'] := by decide
  have back : Allowed ['\x22'] := by decide
  have split : attributeText name value
      = [' '] ++ (name ++ (['=', '\x22'] ++ (escapedValue value ++ ['\x22']))) := by
    simp [attributeText]
  rw [split]
  exact front.append (named.append (middle.append ((escapedValue_allowed allowed).append back)))

theorem writtenAttributes_allowed {given : List (WrittenName × String)} (proper : ∀ a ∈ given, a.1.Proper)
    (allowed : ∀ a ∈ given, Allowed a.2.toList) : Allowed (writtenAttributes given) := by
  intro c member
  obtain ⟨a, among, inside⟩ := List.mem_flatMap.mp member
  exact attributeText_allowed (chars_allowed (proper a among)) (allowed a among) c inside

theorem openTag_allowed (tagged : Tagged marks bindings name attributes) {closed : Bool}
    (values : ∀ b ∈ bindings, Allowed b.2.toList) (behind : Allowed rest) :
    Allowed (openTag marks bindings name attributes closed rest) := by
  have last : Allowed (ending closed) := by cases closed <;> decide
  refine Allowed.append (chars_allowed (written_proper tagged.series tagged.covered tagged.named))
    (.append (writtenAttributes_allowed tagged.proper fun a member => ?_) (last.append behind))
  rcases List.mem_append.mp member with declares | own
  · obtain ⟨b, among, rfl⟩ := List.mem_map.mp declares
    exact values b among
  · obtain ⟨b, among, rfl⟩ := List.mem_map.mp own
    exact (tagged.given b among).allowed

theorem elementText_allowed (tagged : Tagged marks bindings name attributes) {t : String}
    {children : List Node} (values : ∀ b ∈ bindings, Allowed b.2.toList) (inside : Allowed t.toList)
    (below : Allowed (writeAll marks children)) (behind : Allowed rest) :
    Allowed (elementText marks bindings name attributes t children rest) := by
  unfold elementText
  split
  · exact openTag_allowed tagged values behind
  · have slash : Allowed ['<', '/'] := by decide
    have angle : Allowed ['>'] := by decide
    refine openTag_allowed tagged values ((escapedText_allowed inside).append (below.append ?_))
    exact slash.append ((chars_allowed (written_proper tagged.series tagged.covered tagged.named)).append
      (angle.append behind))

theorem writeAll_allowed {nodes : List Node} (each : ∀ n ∈ nodes, Allowed (n.write marks [])) :
    Allowed (writeAll marks nodes) := by
  induction nodes with
  | nil => exact .nil
  | cons n nodes ih =>
    exact (each n List.mem_cons_self).append (ih fun m member => each m (List.mem_cons_of_mem _ member))

theorem write_allowed (series : Series marks) (proper : n.Proper) (covered : n.Covered marks) :
    Allowed (n.write marks []) := by
  have less : isAllowed '<' = true := by decide
  induction proper with
  | comment _ _ allowed behind =>
    have front : Allowed "<!--".toList := by decide
    have back : Allowed "-->".toList := by decide
    exact ((front.append allowed).append back).append (escapedText_allowed behind)
  | @element name attributes text children tail named given _ inside _ behind ih =>
    rw [Node.Covered, Node.names] at covered
    have tagged : Tagged marks [] name attributes :=
      .plain series named given fun n member => covered n (List.mem_append_left _ member)
    have below : Allowed (writeAll marks children) := writeAll_allowed fun n member =>
      ih n member fun m among => covered m (List.mem_append_right _ (mem_namesAll.mpr ⟨n, member, among⟩))
    have written := write_element tagged text tail children []
    rw [List.append_nil] at written
    refine Eq.subst (motive := Allowed) written.symm (.cons less ?_)
    exact elementText_allowed tagged (fun _ impossible => absurd impossible List.not_mem_nil) inside below
      ((escapedText_allowed behind).append .nil)

/-! ### Line breaks of written texts -/

-- The line breaks of a written node are those of its texts.
def Unifies (marks : Marks) (n : Node) : Prop :=
  ∀ rest, Fresh rest → unifyBreaks (n.write marks [] ++ rest) = n.unified.write marks [] ++ unifyBreaks rest

theorem Breaks.fresh (breaks : Breaks cs) : Fresh cs := by
  intro feed
  rcases breaks '\n' feed with impossible | impossible
  · exact absurd impossible (by decide)
  · exact absurd impossible (by decide)

theorem writeAll_unified {nodes : List Node} (each : ∀ n ∈ nodes, Unifies marks n) (breaks : Breaks rest) :
    unifyBreaks (writeAll marks nodes ++ rest) = writeAll marks (unifiedAll nodes) ++ unifyBreaks rest := by
  induction nodes with
  | nil => rfl
  | cons n nodes ih =>
    rw [writeAll, unifiedAll, writeAll, List.append_assoc, List.append_assoc,
      each n List.mem_cons_self _ (writeAll_breaks breaks).fresh,
      ih fun m member => each m (List.mem_cons_of_mem _ member)]

theorem openTag_unified (tagged : Tagged marks bindings name attributes) {closed : Bool} :
    unifyBreaks (openTag marks bindings name attributes closed rest)
      = openTag marks bindings name attributes closed (unifyBreaks rest) := by
  have quiet : '\r' ∉ ending closed := by cases closed <;> decide
  rw [openTag, openTag,
    unifyBreaks_quiet (chars_quiet (written_proper tagged.series tagged.covered tagged.named)),
    unifyBreaks_quiet (writtenAttributes_quiet tagged.proper), unifyBreaks_quiet quiet]

theorem unifyBreaksString_isEmpty {t : String} : (unifyBreaksString t).isEmpty = t.isEmpty := by
  rw [Bool.eq_iff_iff, String.isEmpty_iff, String.isEmpty_iff, ← String.toList_inj, ← String.toList_inj,
    unifyBreaksString_toList]
  generalize t.toList = cs
  unfold unifyBreaks
  split <;> simp

theorem elementText_unified (tagged : Tagged marks bindings name attributes) {t : String}
    {children : List Node} (each : ∀ n ∈ children, Unifies marks n) :
    unifyBreaks (elementText marks bindings name attributes t children rest)
      = elementText marks bindings name attributes (unifyBreaksString t) (unifiedAll children)
          (unifyBreaks rest) := by
  have none : (unifiedAll children).isEmpty = children.isEmpty := by cases children <;> rfl
  have quiet := chars_quiet (written_proper tagged.series tagged.covered tagged.named)
  have less : '<' ≠ '\r' := by decide
  have slash : '/' ≠ '\r' := by decide
  have angle : '>' ≠ '\r' := by decide
  unfold elementText
  rw [unifyBreaksString_isEmpty, none]
  split
  · exact openTag_unified tagged
  · rw [openTag_unified tagged, unifyBreaks_escapedText (writeAll_breaks .less).fresh,
      writeAll_unified each .less, unifyBreaks_cons less, unifyBreaks_cons slash, unifyBreaks_quiet quiet,
      unifyBreaks_cons angle]

theorem write_unified (series : Series marks) (proper : n.Proper) (covered : n.Covered marks) :
    Unifies marks n := by
  induction proper with
  | @comment text tail _ _ _ _ =>
    intro rest fresh
    have front : '\r' ∉ "<!--".toList := by decide
    have back : '\r' ∉ "-->".toList := by decide
    have hyphen : Fresh ("-->".toList ++ (escapedText tail ++ rest)) := .cons (by decide)
    rw [Node.unified, Node.write, Node.write, unifyBreaksString_toList]
    simp only [List.append_assoc]
    rw [unifyBreaks_quiet front, unifyBreaks_append hyphen, unifyBreaks_quiet back,
      unifyBreaks_escapedText fresh]
  | @element name attributes text children tail named given _ _ _ _ ih =>
    intro rest fresh
    rw [Node.Covered, Node.names] at covered
    have tagged : Tagged marks [] name attributes :=
      .plain series named given fun n member => covered n (List.mem_append_left _ member)
    have less : '<' ≠ '\r' := by decide
    have each : ∀ n ∈ children, Unifies marks n := fun n member =>
      ih n member fun m among => covered m (List.mem_append_right _ (mem_namesAll.mpr ⟨n, member, among⟩))
    have before := write_element tagged text tail children rest
    have after := write_element tagged (unifyBreaksString text) (unifyBreaksString tail) (unifiedAll children)
      (unifyBreaks rest)
    refine (congrArg unifyBreaks before).trans (Eq.trans ?_ after.symm)
    rw [unifyBreaks_cons less, elementText_unified tagged each, unifyBreaks_escapedText fresh]

/-! ### Documents -/

theorem after?_other (start : String) {a b d : Char} {more : List Char} (split : start.toList = a :: b :: more)
    (other : b ≠ d) : after? start (c :: d :: rest) = none := by
  rw [after?, split, if_neg]
  simp [List.isPrefixOf, other]

theorem prolog?_begins (begins : Begins cs) : prolog? ('<' :: cs) = some (.empty, '<' :: cs) := by
  obtain ⟨c, more, rfl, starts⟩ := begins
  have bounds := startsName_bounds starts
  have apart (x : Char) (low : x.toNat < 0x41) : x ≠ c := by
    rintro rfl
    omega
  have headed : head? ('<' :: c :: more) = some ('<' :: c :: more) := by
    rw [head?, after?_other "<?xml" rfl (apart '?' (by decide))]
  have skipped : skipMisc ('<' :: c :: more).length ('<' :: c :: more) = some ('<' :: c :: more) := by
    have same : skipSpaces ('<' :: c :: more) = '<' :: c :: more := rfl
    rw [List.length_cons, skipMisc, same, after?_other "<!--" rfl (apart '!' (by decide)),
      after?_other "<?" rfl (apart '?' (by decide))]
  unfold prolog?
  rw [headed]
  dsimp only [Option.bind_eq_bind, Option.bind_some]
  rw [skipped]
  dsimp only [Option.bind_some]
  rw [after?_other "<!DOCTYPE" rfl (apart '!' (by decide))]
  rfl

-- A document that starts with its root is read from there.
theorem parse?_begins (allowed : Allowed ('<' :: text)) (unified : unifyBreaks text = cs)
    (begins : Begins cs) :
    parse? keep ('<' :: text) = (element? keep .empty (cs.length + 2) .start [] cs).bind fun root =>
      (skipMisc root.2.length root.2).bind fun rest => if rest.isEmpty then some root.1 else none := by
  have less : '<' ≠ '\r' := by decide
  have checked : ¬(!('<' :: text).all isAllowed) = true := by simpa [Allowed] using allowed
  have before : prolog? (unifyBreaks ('<' :: text)) = some (.empty, '<' :: cs) := by
    rw [unifyBreaks_cons less, unified, prolog?_begins begins]
  unfold parse?
  refine (if_neg checked).trans ?_
  exact (congrArg (Option.bind · _) before).trans rfl

-- A written root, with the declarations of its prefixes and nothing behind it.
structure Rooted (marks : Marks) (bindings : List (String × String)) (name : Name)
    (attributes : List (Name × String)) (t : String) (children : List Node) : Prop extends
    Tagged marks bindings name attributes where
  values : ∀ b ∈ bindings, Allowed b.2.toList
  inside : Allowed t.toList
  below : ∀ n ∈ children, n.Proper
  found : ∀ n ∈ children, n.Covered marks

variable {t : String} {children : List Node}

theorem write_root (rooted : Rooted marks bindings name attributes t children) :
    (Node.element name attributes t children "").write marks (writtenAttributes (bindings.map declaration))
      = '<' :: elementText marks bindings name attributes t children [] := by
  have written := write_element rooted.toTagged t "" children []
  rwa [List.append_nil] at written

theorem parse?_root (rooted : Rooted marks bindings name attributes t children) :
    parse? keep ((Node.element name attributes t children "").write marks
        (writtenAttributes (bindings.map declaration)))
      = (element? keep .empty ((elementText marks bindings name attributes (unifyBreaksString t)
            (unifiedAll children) []).length + 2) .start []
          (elementText marks bindings name attributes (unifyBreaksString t) (unifiedAll children) [])).bind
        fun root => (skipMisc root.2.length root.2).bind fun rest =>
          if rest.isEmpty then some root.1 else none := by
  have less : isAllowed '<' = true := by decide
  have below : Allowed (writeAll marks children) := writeAll_allowed fun n member =>
    write_allowed rooted.series (rooted.below n member) (rooted.found n member)
  have allowed := Allowed.cons less
    (elementText_allowed rooted.toTagged rooted.values rooted.inside below .nil)
  rw [write_root rooted]
  refine parse?_begins allowed ?_ (elementText_begins rooted.toTagged _ _ _).1
  exact elementText_unified rooted.toTagged fun n member =>
    write_unified rooted.series (rooted.below n member) (rooted.found n member)

theorem parse?_written (rooted : Rooted marks bindings name attributes t children)
    (opens : Opens marks default .start bindings name attributes) :
    parse? keep ((Node.element name attributes t children "").write marks
        (writtenAttributes (bindings.map declaration)))
      = some ((Node.element name attributes t children "").unified.reread keep default) := by
  have each : ∀ n ∈ unifiedAll children, NodeRead keep marks default (bindings.reverse ++ .start) n := by
    intro m member
    rw [unifiedAll_map] at member
    obtain ⟨n, among, rfl⟩ := List.mem_map.mp member
    refine node_read rooted.series opens.reads (rooted.below n among).unified ?_
    rw [Node.Covered, Node.unified_names]
    exact rooted.found n among
  have read : ReadsElement keep .start
      (elementText marks bindings name attributes (unifyBreaksString t) (unifiedAll children) []) _ [] :=
    element_read opens (unifyBreaksString t) (unifyBreaksString "") each
  rw [parse?_root rooted, read _ (Nat.lt_add_of_pos_right (by decide)), Node.unified]
  rfl

theorem element?_refused (tagged : Tagged marks bindings name attributes) {b : String × String}
    (member : b ∈ bindings) (refused : mayBind b.1 b.2 = false) :
    element? keep .empty fuel s [] (elementText marks bindings name attributes t children rest) = none := by
  cases fuel with
  | zero => rfl
  | succ fuel =>
    rw [element?]
    unfold elementText openTag
    split
    · rw [tag?_tagged tagged]
      dsimp only [Option.bind_eq_bind, Option.bind_some]
      rw [open?_refused member refused]
      rfl
    · rw [tag?_tagged tagged]
      dsimp only [Option.bind_eq_bind, Option.bind_some]
      rw [open?_refused member refused]
      rfl

theorem parse?_refused (rooted : Rooted marks bindings name attributes t children) {b : String × String}
    (member : b ∈ bindings) (refused : mayBind b.1 b.2 = false) :
    parse? keep ((Node.element name attributes t children "").write marks
        (writtenAttributes (bindings.map declaration))) = none := by
  rw [parse?_root rooted, element?_refused rooted.toTagged member refused]
  rfl

end InlineProject.Xml
