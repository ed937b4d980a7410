import Mathlib.Data.List.Count
import Mathlib.Data.List.Nodup
import InlineProject.Proofs.ExpansionRun
/-!
The using directives of a file, gathered for the whole project. Of those that say the same, the first one is told, in a
line of its own. A directive that is for the whole project already is told apart from one that is not, although both
come to the same line.
-/

namespace InlineProject

/-! ### Words between blanks -/

namespace Blank

variable {word cs : List Char} {c : Char} {s : String}

theorem wordsFrom_solid (solid : ∀ c ∈ word, isBlank c = false) :
    ∀ w ∈ wordsFrom word cs, ∀ c ∈ w, isBlank c = false := by
  induction cs generalizing word with
  | nil =>
    intro w found c member
    unfold wordsFrom at found
    split at found
    · cases found
    · rw [List.mem_singleton.mp found, List.mem_reverse] at member
      exact solid c member
  | cons d rest ih =>
    intro w found c member
    unfold wordsFrom at found
    split at found
    · split at found
      · exact ih (List.forall_mem_nil _) w found c member
      · rcases List.mem_cons.mp found with same | later
        · rw [same, List.mem_reverse] at member
          exact solid c member
        · exact ih (List.forall_mem_nil _) w later c member
    · rename_i inside
      exact ih (List.forall_mem_cons.mpr ⟨Bool.eq_false_iff.mpr inside, solid⟩) w found c member

theorem mem_spaced {ws : List (List Char)} (found : c ∈ List.intercalate [' '] ws) : c = ' ' ∨ ∃ w ∈ ws, c ∈ w := by
  induction ws with
  | nil => cases found
  | cons w rest ih =>
    cases rest with
    | nil =>
      rw [List.intercalate_singleton] at found
      exact .inr ⟨w, List.mem_cons_self, found⟩
    | cons next rest =>
      rw [List.intercalate_cons_cons, List.mem_append, List.mem_append, List.mem_singleton] at found
      rcases found with (inside | space) | later
      · exact .inr ⟨w, List.mem_cons_self, inside⟩
      · exact .inl space
      · exact (ih later).imp_right fun ⟨w, listed, inside⟩ => ⟨w, List.mem_cons_of_mem _ listed, inside⟩

-- Spaces are the only blanks that are left.
theorem mem_squeeze (found : c ∈ (squeeze s).toList) : c = ' ' ∨ isBlank c = false := by
  unfold squeeze at found
  rw [String.toList_ofList] at found
  refine (mem_spaced found).imp_right fun inside => ?_
  obtain ⟨w, listed, member⟩ := inside
  exact wordsFrom_solid (List.forall_mem_nil _) w listed c member

theorem squeeze_unbroken (found : c ∈ (squeeze s).toList) : Lines.isBoundary c = false := by
  rcases mem_squeeze found with rfl | solid
  · decide
  · refine Bool.eq_false_iff.mpr fun boundary => Bool.eq_false_iff.mp solid ?_
    simp only [Lines.isBoundary, Bool.or_eq_true, Bool.and_eq_true, decide_eq_true_eq, beq_iff_eq] at boundary
    simp only [isBlank, Bool.or_eq_true, Bool.and_eq_true, decide_eq_true_eq, beq_iff_eq]
    omega

end Blank

/-! ### Lines -/

namespace Lines

variable {line l rest : List Char} {ls : List (List Char)}

theorem splitFrom_append (whole : ∀ c ∈ l, isBoundary c = false) :
    splitFrom line (l ++ rest) = splitFrom (l.reverse ++ line) rest := by
  induction l generalizing line with
  | nil => rfl
  | cons c l ih =>
    rw [List.forall_mem_cons] at whole
    have other : ∀ more, c = '\r' → l ++ rest = '\n' :: more → False := by
      rintro more rfl -
      exact absurd whole.1 (by decide)
    rw [List.cons_append, splitFrom.eq_3 _ _ _ other, whole.1, if_neg (by decide), ih whole.2, List.reverse_cons,
      List.append_assoc]
    rfl

-- Lines that are joined are found again.
theorem split_joined (some : ∀ l ∈ ls, l ≠ []) (whole : ∀ l ∈ ls, ∀ c ∈ l, isBoundary c = false) :
    split (List.intercalate ['\n'] ls) = ls := by
  unfold split
  induction ls with
  | nil => rfl
  | cons l ls ih =>
    rw [List.forall_mem_cons] at some whole
    cases ls with
    | nil =>
      rw [List.intercalate_singleton, ← List.append_nil l, splitFrom_append whole.1, splitFrom, if_neg]
      · simp
      · simpa using some.1
    | cons next ls =>
      rw [List.intercalate_cons_cons, List.append_assoc, splitFrom_append whole.1]
      have ended {more : List Char} : splitFrom (l.reverse ++ []) (['\n'] ++ more) = l :: splitFrom [] more := by
        rw [List.append_nil]
        change splitFrom l.reverse ('\n' :: more) = _
        rw [splitFrom.eq_3 _ _ _ (by rintro _ other; cases other), if_pos (by decide), List.reverse_reverse]
      rw [ended, ih some.2 whole.2]

end Lines

/-! ### The directives that are told -/

namespace Source

variable {ns : List Node} {seen : List (Kind × String)} {d e m n : Node} {u : Unit}

namespace Unit

theorem distinctFrom_sublist : (distinctFrom seen ns).Sublist ns := by
  induction ns generalizing seen with
  | nil => exact .slnil
  | cons n rest ih =>
    unfold distinctFrom
    split
    · exact ih.cons n
    · exact ih.cons_cons n

-- The keys are new and differ from one another.
theorem distinctFrom_apart :
    ((distinctFrom seen ns).map Node.key).Nodup ∧ ∀ m ∈ distinctFrom seen ns, m.key ∉ seen := by
  induction ns generalizing seen with
  | nil => exact ⟨.nil, List.forall_mem_nil _⟩
  | cons n rest ih =>
    unfold distinctFrom
    split
    · exact ih
    · rename_i new
      have unseen : ∀ m ∈ distinctFrom (n.key :: seen) rest, m.key ∉ n.key :: seen := ih.2
      refine ⟨?_, List.forall_mem_cons.mpr ⟨fun known => new (List.contains_iff_mem.mpr known), ?_⟩⟩
      · rw [List.map_cons, List.nodup_cons]
        refine ⟨fun known => ?_, ih.1⟩
        obtain ⟨m, listed, same⟩ := List.mem_map.mp known
        exact unseen m listed (same ▸ List.mem_cons_self)
      · exact fun m listed known => unseen m listed (List.mem_cons_of_mem _ known)

theorem distinctFrom_first (listed : n ∈ ns) (new : n.key ∉ seen) :
    ∃ m ∈ distinctFrom seen ns, ns.find? (fun d => d.key = n.key) = some m := by
  induction ns generalizing seen with
  | nil => cases listed
  | cons d rest ih =>
    unfold distinctFrom
    rw [List.find?_cons]
    by_cases same : d.key = n.key
    · have unseen : ¬seen.contains d.key = true := fun known => new (same ▸ List.contains_iff_mem.mp known)
      rw [if_neg unseen, decide_eq_true same]
      exact ⟨d, List.mem_cons_self, rfl⟩
    · have later : n ∈ rest := (List.mem_cons.mp listed).resolve_left fun here => same (here ▸ rfl)
      rw [decide_eq_false same]
      split
      · exact ih later new
      · have unseen : n.key ∉ d.key :: seen := fun known =>
          (List.mem_cons.mp known).elim (fun equal => same equal.symm) new
        obtain ⟨m, told, first⟩ := ih later unseen
        exact ⟨m, List.mem_cons_of_mem _ told, first⟩

theorem mem_usings : n ∈ u.usings ↔ n ∈ u.nodes ∧ n.kind = .using := by
  unfold usings
  rw [List.mem_filter, decide_eq_true_eq]

theorem distinctUsings_sublist : u.distinctUsings.Sublist u.usings := distinctFrom_sublist

theorem distinctUsings_apart : (u.distinctUsings.map Node.key).Nodup := distinctFrom_apart.1

theorem distinctUsings_first (listed : n ∈ u.usings) :
    ∃ m ∈ u.distinctUsings, u.usings.find? (fun d => d.key = n.key) = some m :=
  distinctFrom_first listed List.not_mem_nil

-- A directive is told by one that says the same.
theorem distinctUsings_told (listed : n ∈ u.usings) : ∃ m ∈ u.distinctUsings, m.key = n.key := by
  obtain ⟨m, told, first⟩ := distinctUsings_first listed
  have same := List.find?_some first
  exact ⟨m, told, of_decide_eq_true same⟩

-- Parts are told apart by their places.
def Identified (u : Unit) : Prop := ∀ m ∈ u.nodes, ∀ n ∈ u.nodes, m.place = n.place → m = n

theorem without_usings_nodes (identified : u.Identified) :
    (u.without u.usings).nodes = u.nodes.filter fun n => n.kind ≠ .using := by
  unfold without
  refine List.filter_congr fun n member => ?_
  rw [Bool.eq_iff_iff, Bool.not_eq_true', List.any_eq_false, decide_eq_true_eq]
  constructor
  · exact fun apart directive => apart n (mem_usings.mpr ⟨member, directive⟩) (decide_eq_true rfl)
  · intro other g directive same
    obtain ⟨listed, using_⟩ := mem_usings.mp directive
    exact other (identified g listed n member (of_decide_eq_true same) ▸ using_)

end Unit

/-! ### The lines -/

namespace Node

-- What stands before a directive for the whole project.
def globalMark : String := globalWord ++ " "

theorem globalMark_toList : globalMark.toList = ['g', 'l', 'o', 'b', 'a', 'l', ' '] := rfl

def IsGlobal (d : Node) : Prop := globalMark.toList <+: (Blank.squeeze d.text).toList

instance : Decidable d.IsGlobal :=
  decidable_of_iff (globalMark.toList.isPrefixOf (Blank.squeeze d.text).toList = true) List.isPrefixOf_iff_prefix

-- A directive that says the same as another one, but for the whole project.
structure Doubles (e d : Node) : Prop where
  bare : ¬d.IsGlobal
  longer : Blank.squeeze e.text = globalMark ++ Blank.squeeze d.text

theorem asGlobal_marked (marked : d.IsGlobal) : d.asGlobal = Blank.squeeze d.text := by
  unfold asGlobal
  exact if_pos (List.isPrefixOf_iff_prefix.mpr marked)

theorem asGlobal_bare (bare : ¬d.IsGlobal) : d.asGlobal = globalMark ++ Blank.squeeze d.text := by
  unfold asGlobal
  exact if_neg fun marked => bare (List.isPrefixOf_iff_prefix.mp marked)

theorem Doubles.marked (doubles : e.Doubles d) : e.IsGlobal := by
  unfold IsGlobal
  rw [doubles.longer, String.toList_append]
  exact List.prefix_append _ _

theorem Doubles.same (doubles : e.Doubles d) : e.asGlobal = d.asGlobal := by
  rw [asGlobal_bare doubles.bare, asGlobal_marked doubles.marked, doubles.longer]

theorem Doubles.key_ne (doubles : e.Doubles d) : e.key ≠ d.key := by
  intro same
  have length := congrArg String.length (doubles.longer.symm.trans (Prod.mk.inj same).2)
  rw [String.length_append] at length
  have some : globalMark.length = 7 := rfl
  omega

theorem asGlobal_eq_iff : d.asGlobal = e.asGlobal ↔
    Blank.squeeze d.text = Blank.squeeze e.text ∨ d.Doubles e ∨ e.Doubles d := by
  constructor
  · intro same
    by_cases first : d.IsGlobal
    · rw [asGlobal_marked first] at same
      by_cases second : e.IsGlobal
      · exact .inl (same.trans (asGlobal_marked second))
      · exact .inr (.inl ⟨second, same.trans (asGlobal_bare second)⟩)
    · rw [asGlobal_bare first] at same
      by_cases second : e.IsGlobal
      · exact .inr (.inr ⟨first, (same.trans (asGlobal_marked second)).symm⟩)
      · rw [asGlobal_bare second] at same
        exact .inl ((String.append_right_inj _).mp same)
  · rintro (same | doubles | doubles)
    · unfold asGlobal
      rw [same]
    · exact doubles.same
    · exact doubles.same.symm

theorem asGlobal_some : d.asGlobal.toList ≠ [] := by
  by_cases marked : d.IsGlobal
  · rw [asGlobal_marked marked]
    unfold IsGlobal at marked
    intro none
    rw [none, globalMark_toList] at marked
    exact absurd (List.prefix_nil.mp marked) (List.cons_ne_nil _ _)
  · rw [asGlobal_bare marked, String.toList_append, globalMark_toList]
    exact List.cons_ne_nil _ _

theorem asGlobal_unbroken : ∀ c ∈ d.asGlobal.toList, Lines.isBoundary c = false := by
  intro c found
  by_cases marked : d.IsGlobal
  · rw [asGlobal_marked marked] at found
    exact Blank.squeeze_unbroken found
  · rw [asGlobal_bare marked, String.toList_append, List.mem_append, globalMark_toList] at found
    have word : ['g', 'l', 'o', 'b', 'a', 'l', ' '].all (!Lines.isBoundary ·) = true := by decide
    refine found.elim (fun front => ?_) Blank.squeeze_unbroken
    simpa using List.all_eq_true.mp word c front

end Node
end Source

/-! ### The file -/

namespace Scaffold

open InlineProject.Action
open InlineProject.Source (Node)

variable {σ : Type} {runner : Git.Runner σ} {w w' : World σ} {r : Git.Repository} {directory : Path}
  {stem suffix : String} {u kept : Source.Unit} {d e m n : Node}

def usingsLines (u : Source.Unit) : List (List Char) := Lines.split (usingsText u).toList

theorem usingsLines_eq : usingsLines u = u.distinctUsings.map fun n => n.asGlobal.toList := by
  unfold usingsLines usingsText
  rw [String.toList_intercalate, List.map_map]
  refine Lines.split_joined ?_ ?_
  · intro l listed
    obtain ⟨n, _, rfl⟩ := List.mem_map.mp listed
    exact Node.asGlobal_some
  · intro l listed
    obtain ⟨n, _, rfl⟩ := List.mem_map.mp listed
    exact Node.asGlobal_unbroken

-- Directives that say the same have one line, and a directive has none with another one, unless one doubles the other.
theorem usingsLines_nodup : (usingsLines u).Nodup ↔ ∀ d ∈ u.usings, ∀ e ∈ u.usings, ¬e.Doubles d := by
  have apart := Source.Unit.distinctUsings_apart (u := u)
  rw [usingsLines_eq, List.nodup_map_iff_inj_on (.of_map _ apart)]
  have directive {n : Node} (told : n ∈ u.distinctUsings) : n.kind = .using :=
    (Source.Unit.mem_usings.mp (Source.Unit.distinctUsings_sublist.subset told)).2
  constructor
  · intro injective d listed e alsoListed doubles
    obtain ⟨m, told, same⟩ := Source.Unit.distinctUsings_told listed
    obtain ⟨n, alsoTold, alsoSame⟩ := Source.Unit.distinctUsings_told alsoListed
    have first : Blank.squeeze m.text = Blank.squeeze d.text := (Prod.mk.inj same).2
    have second : Blank.squeeze n.text = Blank.squeeze e.text := (Prod.mk.inj alsoSame).2
    have toldDoubles : n.Doubles m := by
      refine ⟨?_, second.trans (doubles.longer.trans (by rw [first]))⟩
      unfold Node.IsGlobal
      rw [first]
      exact doubles.bare
    have one := injective n alsoTold m told (congrArg String.toList toldDoubles.same)
    exact toldDoubles.key_ne (congrArg Node.key one)
  · intro single m told n alsoTold same
    have listed := Source.Unit.distinctUsings_sublist.subset told
    have alsoListed := Source.Unit.distinctUsings_sublist.subset alsoTold
    rcases Node.asGlobal_eq_iff.mp (String.toList_inj.mp same) with equal | doubles | doubles
    · refine List.inj_on_of_nodup_map apart told alsoTold ?_
      unfold Node.key
      rw [equal, directive told, directive alsoTold]
    · exact absurd doubles (single n alsoListed m listed)
    · exact absurd doubles (single m listed n alsoListed)

theorem mem_usingsLines (listed : n ∈ u.usings) : n.asGlobal.toList ∈ usingsLines u := by
  obtain ⟨m, told, same⟩ := Source.Unit.distinctUsings_told listed
  rw [usingsLines_eq, List.mem_map]
  refine ⟨m, told, congrArg String.toList (Node.asGlobal_eq_iff.mpr (.inl (Prod.mk.inj same).2))⟩

-- How the directives of a file are told: the first of those that say the same, in order, each in a line of its own.
structure Gathered (u kept : Source.Unit) : Prop where
  others : kept.nodes = u.nodes.filter fun n => n.kind ≠ .using
  lines : usingsLines u = u.distinctUsings.map fun n => n.asGlobal.toList
  order : u.distinctUsings.Sublist u.usings
  apart : (u.distinctUsings.map Node.key).Nodup
  first : ∀ n ∈ u.usings, ∃ m ∈ u.distinctUsings, u.usings.find? (fun d => d.key = n.key) = some m
  different : (usingsLines u).Nodup ↔ ∀ d ∈ u.usings, ∀ e ∈ u.usings, ¬e.Doubles d
  once : (∀ n ∈ u.usings, (usingsLines u).count n.asGlobal.toList = 1) ↔
    ∀ d ∈ u.usings, ∀ e ∈ u.usings, ¬e.Doubles d

-- A file is written and taken into the next commit.
def Taken (runner : Git.Runner σ) (r : Git.Repository) (file : Path) (content : String) (w w' : World σ) : Prop :=
  ∃ place, DiskAction.Writable w.disk file place ∧
    (r.stage file).run runner { w with disk := w.disk.put place (.file content.toUTF8) } = (.ok (), w')

-- After the notes on the directives their file is made, unless there are none.
theorem splitUsings_taken (ran : (splitUsings r directory stem suffix u).run runner w = (.ok kept, w')) :
    (u.usings = [] → kept = u ∧ w' = w) ∧
      (u.usings ≠ [] → ∃ noted staged, (noteUsings u.distinctUsings).run runner w = (.ok (), noted) ∧
        Taken runner r (directory.join (stem ++ suffix)) (usingsText u) noted staged) := by
  unfold splitUsings at ran
  cases none : u.distinctUsings.isEmpty with
  | true =>
    have empty := Source.Unit.usings_of_distinctUsings_isEmpty none
    simp only [none, if_true] at ran
    obtain ⟨rfl, rfl⟩ := pure_parts ran
    exact ⟨fun _ => ⟨rfl, rfl⟩, fun some => absurd empty some⟩
  | false =>
    have some : u.usings ≠ [] := fun empty => by
      unfold Source.Unit.distinctUsings at none
      rw [empty] at none
      cases none
    simp only [none, Bool.false_eq_true, if_false] at ran
    obtain ⟨_, noted, notes, ran⟩ := bind_parts ran
    obtain ⟨_, staged, wrote, _⟩ := bind_parts ran
    exact ⟨fun empty => absurd empty some, fun _ => ⟨noted, staged, notes, writeStaged_parts wrote⟩⟩

theorem gathered (identified : u.Identified) : Gathered u (u.without u.usings) where
  others := Source.Unit.without_usings_nodes identified
  lines := usingsLines_eq
  order := Source.Unit.distinctUsings_sublist
  apart := Source.Unit.distinctUsings_apart
  first _ listed := Source.Unit.distinctUsings_first listed
  different := usingsLines_nodup
  once := by
    rw [← usingsLines_nodup, List.nodup_iff_count_eq_one]
    constructor
    · intro once l listed
      rw [usingsLines_eq] at listed
      obtain ⟨n, told, rfl⟩ := List.mem_map.mp listed
      exact once n (Source.Unit.distinctUsings_sublist.subset told)
    · exact fun once n listed => once _ (mem_usingsLines listed)

-- What is returned has no directive, and what is written tells them all; the lines differ from one another unless a
-- directive stands there with the word for the whole project and without.
theorem splitUsings_gathers (identified : u.Identified)
    (ran : (splitUsings r directory stem suffix u).run runner w = (.ok kept, w')) :
    Gathered u kept ∧ (u.usings = [] → kept = u ∧ w' = w) ∧
      (u.usings ≠ [] → ∃ noted staged, (noteUsings u.distinctUsings).run runner w = (.ok (), noted) ∧
        Taken runner r (directory.join (stem ++ suffix)) (usingsText u) noted staged) := by
  have rest := splitUsings_parts ran
  refine ⟨?_, splitUsings_taken ran⟩
  rw [rest]
  exact gathered identified

def mixed : Source.Unit :=
  .ofParts [(.using, "using  System;\n"), (.using, "using System;\n"), (.using, "global using System;\n"),
    (.code, "class A { }\n")]

def bench : World Unit where
  disk := ⟨[(["bench"], .directory)]⟩
  now := default
  git := ()
  calls := []
  journal := none
  console := []
  registry := .empty none

def willing : Git.Runner Unit := fun _ s d => (.output "", s, d)

-- The same directive in two layouts has one line, with the word for the whole project it has another one.
theorem splitUsings_gathers_mixed :
    ∃ kept w', (splitUsings ⟨⟨.root, ["bench"]⟩⟩ ⟨.root, ["bench"]⟩ "GlobalUsings" ".cs" mixed).run willing bench
        = (.ok kept, w') ∧ Gathered mixed kept ∧ ¬(usingsLines mixed).Nodup := by
  have ended : ((splitUsings ⟨⟨.root, ["bench"]⟩⟩ ⟨.root, ["bench"]⟩ "GlobalUsings" ".cs" mixed).run willing bench).1
      = .ok ⟨[⟨3, .code, "class A { }\n"⟩]⟩ := by decide +kernel
  have ran := ok_of_result ended
  have identified : mixed.Identified := by
    unfold Source.Unit.Identified
    decide
  have gathers := (splitUsings_gathers identified ran).1
  exact ⟨_, _, ran, gathers, fun nodup => absurd nodup (by decide)⟩

end Scaffold
end InlineProject
