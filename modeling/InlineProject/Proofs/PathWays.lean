import InlineProject.Path
import InlineProject.Disk.Basic
/-!
Ways of paths. Without links, where a path leads to is said by its names alone. A path below a directory
has a relative one, and what that one is written as stands for it.
-/

namespace InlineProject

namespace Path

-- One step on: up where the name is the one of the parent, else down.
def stepFrom (place : Place) (name : String) : Place :=
  if name = parentName then place.dropLast else place ++ [name]

def endFrom (place : Place) (names : List String) : Place := names.foldl stepFrom place

-- The places that are left on the way.
def trailFrom (place : Place) : List String → List Place
  | [] => []
  | name :: rest => place :: trailFrom (stepFrom place name) rest

def place (p : Path) : Place := endFrom [] p.parts

def trail (p : Path) : List Place := trailFrom [] p.parts

theorem endFrom_append (start : Place) (front back : List String) :
    endFrom start (front ++ back) = endFrom (endFrom start front) back := List.foldl_append

theorem trailFrom_append (start : Place) (front back : List String) :
    trailFrom start (front ++ back) = trailFrom start front ++ trailFrom (endFrom start front) back := by
  induction front generalizing start with
  | nil => rfl
  | cons name rest ih => exact congrArg (start :: ·) (ih (stepFrom start name))

theorem hasNull_append {anchor : Anchor} {front back : List String} :
    hasNull ⟨anchor, front ++ back⟩ = false ↔ hasNull ⟨anchor, front⟩ = false ∧ hasNull ⟨anchor, back⟩ = false := by
  unfold hasNull
  rw [List.any_append, Bool.or_eq_false_iff]

theorem mem_trailFrom {start q : Place} {names : List String} :
    q ∈ trailFrom start names ↔
      ∃ front name back, names = front ++ name :: back ∧ q = endFrom start front := by
  induction names generalizing start with
  | nil =>
    constructor
    · intro none
      cases none
    · rintro ⟨front, name, back, split, _⟩
      cases front <;> cases split
  | cons first rest ih =>
    constructor
    · intro member
      rcases List.mem_cons.mp member with rfl | later
      · exact ⟨[], first, rest, rfl, rfl⟩
      · obtain ⟨front, name, back, rfl, rfl⟩ := ih.mp later
        exact ⟨first :: front, name, back, rfl, rfl⟩
    · rintro ⟨front, name, back, split, rfl⟩
      cases front with
      | nil => exact List.mem_cons_self
      | cons head front =>
        cases split
        exact List.mem_cons_of_mem _ (ih.mpr ⟨front, name, back, rfl, rfl⟩)

-- What stands at the end beyond some length was passed in the names.
theorem mem_drop_endFrom {start : Place} {names : List String} {k : Nat} {n : String}
    (member : n ∈ (endFrom start names).drop k) : n ∈ start.drop k ∨ n ∈ names := by
  induction names generalizing start with
  | nil => exact .inl member
  | cons name rest ih =>
    rcases ih member with inside | later
    · unfold stepFrom at inside
      split at inside
      · rw [List.dropLast_eq_take, List.drop_take] at inside
        exact .inl (List.mem_of_mem_take inside)
      · rw [List.drop_append] at inside
        rcases List.mem_append.mp inside with old | new
        · exact .inl old
        · have same := List.mem_singleton.mp (List.mem_of_mem_drop new)
          exact .inr (same ▸ List.mem_cons_self)
    · exact .inr (List.mem_cons_of_mem _ later)

theorem settleFrom_eq_endFrom (done names : List String) :
    settleFrom done names = endFrom done.reverse names := by
  induction names generalizing done with
  | nil => rfl
  | cons name rest ih =>
    unfold settleFrom
    change _ = endFrom (stepFrom done.reverse name) rest
    unfold stepFrom
    split
    · rw [ih]
      congr 1
      cases done with
      | nil => rfl
      | cons last above => simp
    · rw [ih, List.reverse_cons]

-- A way that was settled has the same end as the path.
theorem resolve_parts_eq (p here : Path) : (p.resolve here).parts = (here ++ p).place :=
  settleFrom_eq_endFrom [] _

/-! ### Paths without steps upwards -/

section Down

variable {p here : Path} {start q : Place} {names : List String}

theorem endFrom_down (down : parentName ∉ names) : endFrom start names = start ++ names := by
  induction names generalizing start with
  | nil => exact (List.append_nil start).symm
  | cons name rest ih =>
    rw [List.mem_cons, not_or] at down
    have one : stepFrom start name = start ++ [name] := if_neg (Ne.symm down.1)
    change endFrom (stepFrom start name) rest = _
    rw [one, ih down.2, List.append_assoc]
    rfl

theorem place_down (down : parentName ∉ p.parts) : p.place = p.parts := endFrom_down down

theorem trail_down (down : parentName ∉ p.parts) (on : q ∈ p.trail) : q <+: p.parts := by
  obtain ⟨front, name, back, same, rfl⟩ := mem_trailFrom.mp on
  rw [same, List.mem_append, not_or] at down
  rw [same, endFrom_down down.1]
  exact List.prefix_append _ _

theorem resolve_down (absolute : p.anchor = .root) (down : parentName ∉ p.parts) : p.resolve here = p := by
  have alone : here ++ p = p := if_pos (by unfold isAbsolute; rw [absolute]; rfl)
  have parts : (p.resolve here).parts = p.parts := by rw [resolve_parts_eq, alone, place_down down]
  cases p with
  | mk anchor names =>
    cases absolute
    exact congrArg (Path.mk .root) parts

end Down

/-! ### Paths as they are written -/

-- What a part of a path that was read looks like.
def Plain (name : String) : Prop := name ≠ "" ∧ name ≠ hereName ∧ '/' ∉ name.toList

theorem not_mem_of_splitOn {sep : Char} {cs piece : List Char} (listed : piece ∈ cs.splitOn sep) :
    sep ∉ piece := by
  induction cs generalizing piece with
  | nil =>
    rw [List.splitOn_nil, List.mem_singleton] at listed
    rw [listed]
    exact List.not_mem_nil
  | cons c rest ih =>
    rw [List.splitOn_cons_eq_if_modifyHead] at listed
    split at listed
    · rcases List.mem_cons.mp listed with rfl | later
      · exact List.not_mem_nil
      · exact ih later
    · rename_i other
      cases pieces : rest.splitOn sep with
      | nil => exact absurd pieces (List.splitOn_ne_nil sep rest)
      | cons first more =>
        rw [pieces, List.modifyHead_cons] at listed
        rcases List.mem_cons.mp listed with rfl | later
        · intro member
          rcases List.mem_cons.mp member with rfl | inside
          · exact other (beq_self_eq_true _)
          · exact ih (pieces ▸ List.mem_cons_self) inside
        · exact ih (pieces ▸ List.mem_cons_of_mem _ later)

theorem plain_of_ofString {s name : String} (listed : name ∈ (ofString s).parts) : Plain name := by
  obtain ⟨split, kept⟩ := List.mem_filter.mp listed
  obtain ⟨piece, cut, rfl⟩ := List.mem_map.mp split
  rw [Bool.and_eq_true] at kept
  refine ⟨?_, ?_, ?_⟩
  · rintro empty
    rw [empty] at kept
    exact absurd kept.1 (by decide)
  · exact fun here => (bne_iff_ne.mp kept.2) here
  · rw [String.toList_ofList]
    exact not_mem_of_splitOn cut

theorem anchorOf_plain {name more : String} (plain : Plain name) : anchorOf (name ++ more) = .here := by
  unfold anchorOf
  rw [String.toList_append]
  cases cs : name.toList with
  | nil => exact absurd (String.toList_eq_nil_iff.mp cs) plain.1
  | cons c rest =>
    have other : (c == '/') = false := by
      apply Bool.eq_false_iff.mpr
      intro slash
      apply plain.2.2
      rw [cs, eq_of_beq slash]
      exact List.mem_cons_self
    rw [List.cons_append, List.takeWhile_cons_of_neg (by rw [other]; exact Bool.false_ne_true)]
    rfl

-- A relative path of such parts is read as it is written.
theorem ofString_toString {way : List String} (plain : ∀ n ∈ way, Plain n) :
    ofString (toString ⟨.here, way⟩) = ⟨.here, way⟩ := by
  cases way with
  | nil => rfl
  | cons name rest =>
    have written : toString ⟨.here, name :: rest⟩ = "/".intercalate (name :: rest) := by
      change Anchor.text .here ++ _ = _
      exact String.empty_append
    have anchor : anchorOf ("/".intercalate (name :: rest)) = .here := by
      cases rest with
      | nil =>
        rw [String.intercalate_singleton, ← String.append_empty (s := name)]
        exact anchorOf_plain (plain _ List.mem_cons_self)
      | cons next more =>
        rw [String.intercalate_cons_cons, String.append_assoc]
        exact anchorOf_plain (plain _ List.mem_cons_self)
    have pieces : ("/".intercalate (name :: rest)).toList.splitOn '/'
        = (name :: rest).map String.toList := by
      rw [String.toList_intercalate]
      refine List.splitOn_intercalate '/' ?_ (by simp)
      intro piece listed
      obtain ⟨n, member, rfl⟩ := List.mem_map.mp listed
      exact (plain n member).2.2
    have back : ((name :: rest).map String.toList).map String.ofList = name :: rest := by
      rw [List.map_map]
      exact (List.map_congr_left fun n _ => String.ofList_toList).trans (List.map_id _)
    have all : (name :: rest).filter (fun n => !n.isEmpty && n != hereName) = name :: rest := by
      refine List.filter_eq_self.mpr fun n member => ?_
      obtain ⟨present, other, _⟩ := plain n member
      rw [Bool.and_eq_true, bne_iff_ne]
      refine ⟨?_, other⟩
      rw [Bool.not_eq_true', Bool.eq_false_iff]
      exact fun empty => present (String.isEmpty_iff.mp empty)
    unfold ofString
    rw [written, anchor, pieces]
    dsimp only
    rw [back, all]

end Path

/-! ### Below a place -/

-- Inside of a directory, which itself is not meant.
def Below (home q : Place) : Prop := home <+: q ∧ q ≠ home

instance (home q : Place) : Decidable (Below home q) := inferInstanceAs (Decidable (_ ∧ _))

theorem below_append {home way : Place} (away : way ≠ []) : Below home (home ++ way) :=
  ⟨List.prefix_append home way, fun same => away (List.append_right_eq_self.mp same)⟩

-- The path enters a directory only to stay below it: it does not come out again, nor turn aside there.
def Direct (home : Place) (p : Path) : Prop := ∀ q ∈ p.trail, Below home q → q <+: p.place

instance (home : Place) (p : Path) : Decidable (Direct home p) :=
  inferInstanceAs (Decidable (∀ q ∈ p.trail, Below home q → q <+: p.place))

end InlineProject
