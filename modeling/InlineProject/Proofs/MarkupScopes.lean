import Mathlib
import InlineProject.Proofs.MarkupReading
/-!
The names in a written tag. Behind the declarations of all prefixes every name is found under the prefix it
was written with; only an element without a namespace takes the default one.
-/

namespace InlineProject.Xml

variable {marks : Marks} {uri mark : String} {n m : Name} {s : Scope} {default : Option String}

/-! ### Written names -/

def Marks.written (marks : Marks) (n : Name) : WrittenName :=
  match n.space with
  | none => ⟨none, n.label⟩
  | some uri => if uri = xmlSpace then ⟨some "xml", n.label⟩ else ⟨marks.lookup uri, n.label⟩

theorem Series.found (series : Series marks) (found : marks.lookup uri = some mark) : Mark uri mark :=
  series.entry (lookup_mem found)

-- How a covered name is written: bare, with the prefix of the language, or with one of the series.
inductive Written (marks : Marks) (n : Name) : WrittenName → Prop where
  | bare (spaceless : n.space = none) : Written marks n ⟨none, n.label⟩
  | language (space : n.space = some xmlSpace) : Written marks n ⟨some "xml", n.label⟩
  | marked {uri mark : String} (space : n.space = some uri) (known : marks.lookup uri = some mark) :
      Written marks n ⟨some mark, n.label⟩

theorem written_exact (series : Series marks) (covered : n.Covered marks) :
    Written marks n (marks.written n) ∧ marks.write n = (marks.written n).chars := by
  unfold Marks.written Marks.write
  cases space : n.space with
  | none => exact ⟨.bare space, rfl⟩
  | some uri =>
    dsimp only
    by_cases language : uri = xmlSpace
    · rw [if_pos language, if_pos language]
      exact ⟨.language (language ▸ space), rfl⟩
    · rw [if_neg language, if_neg language]
      obtain ⟨mark, known⟩ := Option.isSome_iff_exists.mp ((covered uri space).resolve_left language)
      rw [known]
      exact ⟨.marked space known, if_neg (series.found known).label.ne_empty⟩

theorem written_proper (series : Series marks) (covered : n.Covered marks) (proper : n.Proper) :
    (marks.written n).Proper := by
  have written := (written_exact series covered).1
  generalize marks.written n = w at written ⊢
  cases written with
  | bare => exact ⟨proper.label, fun _ impossible => absurd impossible (by simp)⟩
  | language =>
    refine ⟨proper.label, ?_⟩
    rintro _ ⟨⟩
    decide
  | marked _ known =>
    refine ⟨proper.label, ?_⟩
    rintro _ ⟨⟩
    exact (series.found known).label

theorem written_injective (series : Series marks) (covered : n.Covered marks) (covered' : m.Covered marks)
    (same : marks.written n = marks.written m) : n = m := by
  have one := (written_exact series covered).1
  have other := (written_exact series covered').1
  rw [← same] at other
  generalize marks.written n = w at one other
  obtain ⟨space, label⟩ := n
  obtain ⟨space', label'⟩ := m
  cases one with
  | bare spaceless =>
    cases other with
    | bare spaceless' =>
      cases spaceless
      cases spaceless'
      rfl
  | language language =>
    cases language
    cases other with
    | language language' =>
      cases language'
      rfl
    | marked _ known => exact absurd rfl (series.found known).unreserved
  | marked spaced known =>
    cases spaced
    cases other with
    | language => exact absurd rfl (series.found known).unreserved
    | marked spaced' known' =>
      cases spaced'
      rw [series.injective known known']

theorem written_unbound (series : Series marks) (covered : n.Covered marks)
    (undeclared : n.space = none → n.label ≠ "xmlns") : (marks.written n).bound? = none := by
  have written := (written_exact series covered).1
  generalize marks.written n = w at written ⊢
  cases written with
  | bare spaceless => exact if_neg (undeclared spaceless)
  | language => rfl
  | marked _ known =>
    have free := (series.found known).undeclared
    unfold WrittenName.bound?
    split
    · rename_i same
      exact absurd (Option.some.inj same) free
    · rfl
    · rename_i same
      cases same

/-! ### Names in a scope -/

structure Scope.Reads (s : Scope) (marks : Marks) (default : Option String) : Prop where
  marked : ∀ uri mark, marks.lookup uri = some mark → s.lookup mark = some uri
  language : s.lookup "xml" = some xmlSpace
  bare : s.lookup "" = default
  named : default ≠ some ""

-- An element without a namespace is in the default one.
def Name.inDefault (default : Option String) (n : Name) : Name := ⟨n.space.or default, n.label⟩

theorem attributeName?_written (series : Series marks) (reads : s.Reads marks default)
    (covered : n.Covered marks) : s.attributeName? (marks.written n) = some n := by
  have written := (written_exact series covered).1
  generalize marks.written n = w at written ⊢
  obtain ⟨space, label⟩ := n
  cases written with
  | bare spaceless =>
    cases spaceless
    rfl
  | language language =>
    cases language
    rw [Scope.attributeName?]
    dsimp only
    rw [reads.language]
    rfl
  | marked spaced known =>
    cases spaced
    rw [Scope.attributeName?]
    dsimp only
    rw [reads.marked _ _ known]
    rfl

theorem elementName?_written (series : Series marks) (reads : s.Reads marks default)
    (covered : n.Covered marks) : s.elementName? (marks.written n) = some (n.inDefault default) := by
  have written := (written_exact series covered).1
  generalize marks.written n = w at written ⊢
  obtain ⟨space, label⟩ := n
  cases written with
  | bare spaceless =>
    cases spaceless
    rw [Scope.elementName?]
    dsimp only
    rw [reads.bare]
    have named := reads.named
    cases default with
    | none => rfl
    | some uri =>
      split
      · rename_i impossible
        cases impossible
      · rename_i same
        exact absurd same named
      · rename_i same
        cases same
        rfl
  | language language =>
    cases language
    rw [Scope.elementName?]
    dsimp only
    rw [reads.language]
    rfl
  | marked spaced known =>
    cases spaced
    rw [Scope.elementName?]
    dsimp only
    rw [reads.marked _ _ known]
    rfl

/-! ### Declarations -/

def declaredName (mark : String) : WrittenName :=
  if mark = "" then ⟨none, "xmlns"⟩ else ⟨some "xmlns", mark⟩

-- The attribute that binds a prefix to a namespace.
def declaration (b : String × String) : WrittenName × String := (declaredName b.1, b.2)

def asRead (a : WrittenName × String) : WrittenName × List Char := (a.1, a.2.toList)

theorem declaredName_bound (mark : String) : (declaredName mark).bound? = some mark := by
  unfold declaredName
  split
  · rename_i same
    rw [same]
    rfl
  · rfl

theorem declaredName_injective : Function.Injective declaredName := by
  intro mark other same
  have bound := declaredName_bound mark
  rw [same, declaredName_bound] at bound
  exact (Option.some.inj bound).symm

theorem bindAll_declarations {bindings : List (String × String)} {more : List (WrittenName × List Char)}
    (may : ∀ b ∈ bindings, mayBind b.1 b.2 = true) :
    bindAll s ((bindings.map declaration).map asRead ++ more) = bindAll (bindings.reverse ++ s) more := by
  induction bindings generalizing s with
  | nil => rfl
  | cons b bindings ih =>
    have bound : (asRead (declaration b)).1.bound? = some b.1 := declaredName_bound b.1
    have value : String.ofList (asRead (declaration b)).2 = b.2 := String.ofList_toList
    rw [List.map_cons, List.map_cons, List.cons_append, bindAll, bound]
    dsimp only
    rw [value, if_pos (may b List.mem_cons_self), ih fun c member => may c (List.mem_cons_of_mem _ member),
      List.reverse_cons, List.append_assoc]
    rfl

theorem bindAll_refused {bindings : List (String × String)} {more : List (WrittenName × List Char)}
    {b : String × String} (member : b ∈ bindings) (refused : mayBind b.1 b.2 = false) :
    bindAll s ((bindings.map declaration).map asRead ++ more) = none := by
  induction bindings generalizing s with
  | nil => cases member
  | cons c bindings ih =>
    have bound : (asRead (declaration c)).1.bound? = some c.1 := declaredName_bound c.1
    have value : String.ofList (asRead (declaration c)).2 = c.2 := String.ofList_toList
    rw [List.map_cons, List.map_cons, List.cons_append, bindAll, bound]
    dsimp only
    rw [value]
    rcases List.mem_cons.mp member with rfl | later
    · rw [refused]
      rfl
    · split
      · exact ih later
      · rfl

theorem bindAll_unbound {given : List (WrittenName × List Char)}
    (unbound : ∀ a ∈ given, a.1.bound? = none) : bindAll s given = some s := by
  induction given with
  | nil => rfl
  | cons a given ih =>
    rw [bindAll, unbound a List.mem_cons_self]
    exact ih fun b member => unbound b (List.mem_cons_of_mem _ member)

/-! ### Tags -/

def writtenAttribute (marks : Marks) (a : Name × String) : WrittenName × String :=
  (marks.written a.1, a.2)

-- The attributes in the tag of an element: declarations of prefixes, then its own.
def tagAttributes (marks : Marks) (bindings : List (String × String)) (attributes : List (Name × String)) :
    List (WrittenName × String) :=
  bindings.map declaration ++ attributes.map (writtenAttribute marks)

-- A tag whose names can be written.
structure Tagged (marks : Marks) (bindings : List (String × String)) (name : Name)
    (attributes : List (Name × String)) : Prop where
  series : Series marks
  named : name.Proper
  covered : name.Covered marks
  given : ∀ a ∈ attributes, Attribute.Proper a
  covers : ∀ a ∈ attributes, a.1.Covered marks
  labels : ∀ b ∈ bindings, b.1 = "" ∨ Label b.1

-- A tag that leads into a scope where all its names are found again.
structure Opens (marks : Marks) (default : Option String) (s : Scope) (bindings : List (String × String))
    (name : Name) (attributes : List (Name × String)) : Prop extends
    Tagged marks bindings name attributes where
  distinct : (attributes.map Prod.fst).Nodup
  may : ∀ b ∈ bindings, mayBind b.1 b.2 = true
  single : (bindings.map Prod.fst).Nodup
  reads : Scope.Reads (bindings.reverse ++ s) marks default

variable {bindings : List (String × String)} {name : Name} {attributes : List (Name × String)}

theorem declaredName_proper (label : mark = "" ∨ Label mark) : (declaredName mark).Proper := by
  unfold declaredName
  split
  · exact ⟨by decide, fun _ impossible => absurd impossible (by simp)⟩
  · rename_i named
    refine ⟨label.resolve_left named, ?_⟩
    rintro _ ⟨⟩
    decide

theorem Tagged.proper (tagged : Tagged marks bindings name attributes) :
    ∀ a ∈ tagAttributes marks bindings attributes, a.1.Proper := by
  intro a member
  rcases List.mem_append.mp member with declares | own
  · obtain ⟨b, among, rfl⟩ := List.mem_map.mp declares
    exact declaredName_proper (tagged.labels b among)
  · obtain ⟨b, among, rfl⟩ := List.mem_map.mp own
    exact written_proper tagged.series (tagged.covers b among) (tagged.given b among).name

theorem Tagged.unbound (tagged : Tagged marks bindings name attributes) :
    ∀ a ∈ (attributes.map (writtenAttribute marks)).map asRead, a.1.bound? = none := by
  intro a member
  obtain ⟨_, among, rfl⟩ := List.mem_map.mp member
  obtain ⟨a, given, rfl⟩ := List.mem_map.mp among
  exact written_unbound tagged.series (tagged.covers a given) (tagged.given a given).undeclared

theorem tag?_tagged (tagged : Tagged marks bindings name attributes) {closed : Bool} {rest : List Char} :
    tag? .empty ((marks.written name).chars ++
        (writtenAttributes (tagAttributes marks bindings attributes) ++ (ending closed ++ rest)))
      = some (⟨marks.written name, (tagAttributes marks bindings attributes).map asRead, closed⟩, rest) :=
  tag?_written (written_proper tagged.series tagged.covered tagged.named) tagged.proper

theorem declared_empty {t : Tag} : declared .empty t = t.attributes := by
  simp [declared, Doctype.empty]

theorem Opens.names (opens : Opens marks default s bindings name attributes) :
    ((tagAttributes marks bindings attributes).map Prod.fst).Nodup := by
  have front : (bindings.map declaration).map Prod.fst = (bindings.map Prod.fst).map declaredName := by
    rw [List.map_map, List.map_map]
    rfl
  have back : (attributes.map (writtenAttribute marks)).map Prod.fst
      = (attributes.map Prod.fst).map marks.written := by
    rw [List.map_map, List.map_map]
    rfl
  rw [tagAttributes, List.map_append, front, back, List.nodup_append]
  refine ⟨opens.single.map declaredName_injective, List.Nodup.map_on ?_ opens.distinct, ?_⟩
  · intro n among m among' same
    obtain ⟨a, member, rfl⟩ := List.mem_map.mp among
    obtain ⟨b, member', rfl⟩ := List.mem_map.mp among'
    exact written_injective opens.series (opens.covers a member) (opens.covers b member') same
  · rintro w declares _ names rfl
    obtain ⟨mark, _, rfl⟩ := List.mem_map.mp declares
    obtain ⟨n, among, same⟩ := List.mem_map.mp names
    obtain ⟨a, member, rfl⟩ := List.mem_map.mp among
    have unbound := written_unbound opens.series (opens.covers a member) (opens.given a member).undeclared
    rw [same, declaredName_bound] at unbound
    cases unbound

theorem open?_written (opens : Opens marks default s bindings name attributes) {closed : Bool} :
    open? .empty s ⟨marks.written name, (tagAttributes marks bindings attributes).map asRead, closed⟩
      = some (name.inDefault default, attributes, bindings.reverse ++ s) := by
  have single : hasDuplicates (((tagAttributes marks bindings attributes).map asRead).map (·.1)) = false := by
    rw [List.map_map]
    exact hasDuplicates_exact.mpr opens.names
  have bound : bindAll s ((tagAttributes marks bindings attributes).map asRead)
      = some (bindings.reverse ++ s) := by
    rw [tagAttributes, List.map_append, bindAll_declarations opens.may]
    exact bindAll_unbound opens.unbound
  have kept : ((tagAttributes marks bindings attributes).map asRead).filter
      (fun a => a.1.bound?.isNone) = (attributes.map (writtenAttribute marks)).map asRead := by
    rw [tagAttributes, List.map_append, List.filter_append, List.filter_eq_nil_iff.mpr, List.nil_append,
      List.filter_eq_self.mpr]
    · intro a member
      rw [opens.unbound a member]
      rfl
    · intro a member
      obtain ⟨_, among, rfl⟩ := List.mem_map.mp member
      obtain ⟨b, _, rfl⟩ := List.mem_map.mp among
      rw [show (asRead (declaration b)).1.bound? = some b.1 from declaredName_bound b.1]
      exact Bool.false_ne_true
  have mapped : ((attributes.map (writtenAttribute marks)).map asRead).mapM
      (fun a => (Scope.attributeName? (bindings.reverse ++ s) a.1).map fun name =>
        (name, String.ofList a.2)) = some attributes := by
    rw [mapM_exact, List.forall₂_map_left_iff, List.forall₂_map_left_iff, List.forall₂_same]
    intro a member
    rw [show (asRead (writtenAttribute marks a)).1 = marks.written a.1 from rfl,
      attributeName?_written opens.series opens.reads (opens.covers a member)]
    exact congrArg some (Prod.ext rfl String.ofList_toList)
  unfold open?
  dsimp only
  rw [single, declared_empty]
  dsimp only
  rw [bound]
  dsimp only [Option.bind_eq_bind, Option.bind_some]
  rw [elementName?_written opens.series opens.reads opens.covered]
  dsimp only [Option.bind_some]
  change ((List.mapM (fun a : WrittenName × List Char =>
      (Scope.attributeName? (bindings.reverse ++ s) a.1).map fun name => (name, String.ofList a.2))
    (List.filter (fun a : WrittenName × List Char => a.1.bound?.isNone) _)).bind _) = _
  rw [kept, mapped]
  dsimp only [Option.bind_some]
  rw [hasDuplicates_exact.mpr opens.distinct]
  rfl

-- A declaration that may not be made is the end of the document.
theorem open?_refused {b : String × String} (member : b ∈ bindings) (refused : mayBind b.1 b.2 = false)
    {closed : Bool} :
    open? .empty s ⟨marks.written name, (tagAttributes marks bindings attributes).map asRead, closed⟩
      = none := by
  unfold open?
  dsimp only
  split
  · rfl
  · rw [declared_empty]
    dsimp only
    rw [tagAttributes, List.map_append, bindAll_refused member refused]
    rfl

end InlineProject.Xml
