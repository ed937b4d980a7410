import InlineProject.Proofs.DiskRun
import InlineProject.Proofs.ExpansionRun
import InlineProject.Proofs.SourceBytes
/-!
The source that a project is given. Its bytes are those of the source file without the comment that
describes the project and without the directives, and of what stands around these only blanks and line
breaks go with them.
-/

namespace InlineProject.Source

/-! ### The spans of a file -/

-- A text behind its byte order mark, if it has one.
def body : List Char → List Char
  | '\uFEFF' :: rest => rest
  | cs => cs

-- The spans of a file by a grammar, with their numbers.
def pieces (g : Grammar) (cs : List Char) : List (Span × Nat) :=
  (layout (fun cs => (g cs).places cs.length) cs).zipIdx

theorem layout_cases (ranges : List Char → List Range × List Range) (cs : List Char) :
    (body cs = cs ∧ layout ranges cs = tiles ranges cs) ∨
    (cs = byteOrderMark :: body cs ∧
      layout ranges cs = ⟨⟨0, 1⟩, .code⟩ :: (tiles ranges (body cs)).map fun s => s.shift 1) := by
  by_cases marked : ∃ rest, cs = byteOrderMark :: rest
  · obtain ⟨rest, rfl⟩ := marked
    exact .inr ⟨rfl, rfl⟩
  · left
    constructor
    · unfold body
      split
      · exact absurd ⟨_, rfl⟩ marked
      · rfl
    · unfold layout
      split
      · exact absurd ⟨_, rfl⟩ marked
      · rfl

variable {ranges : List Char → List Range × List Range} {cs : List Char}

theorem tiles_tiled
    (within : ∀ r ∈ (ranges cs).1 ++ (ranges cs).2, r.Within cs.length) :
    Tiled cs.length 0 (tiles ranges cs) :=
  tilesFrom_tiled (Nat.zero_le _) (spansOf_within within)

theorem layout_tiled
    (within : ∀ r ∈ (ranges (body cs)).1 ++ (ranges (body cs)).2, r.Within (body cs).length) :
    Tiled cs.length 0 (layout ranges cs) := by
  have inBody := tiles_tiled within
  rcases layout_cases ranges cs with ⟨plain, same⟩ | ⟨marked, same⟩
  · rw [same]
    rwa [plain] at inBody
  · have length : cs.length = (body cs).length + 1 := congrArg List.length marked
    rw [same, length]
    exact ⟨rfl, Nat.zero_le _, tiled_shift 1 inBody⟩

def nodeOf (cs : List Char) (p : Span × Nat) : Node :=
  ⟨p.2, p.1.kind, String.ofList (textOf cs p.1.range)⟩

theorem parse_nodes (g : Grammar) (text : String) :
    (Unit.parse g text).nodes = (pieces g text.toList).map (nodeOf text.toList) := by
  unfold Unit.parse Unit.ofRanges Unit.ofParts pieces
  dsimp only
  rw [List.zipIdx_map, List.map_map]
  rfl

-- A part is known by its number.
theorem eq_of_place {g : Grammar} {text : String} {n m : Node}
    (here : n ∈ (Unit.parse g text).nodes) (there : m ∈ (Unit.parse g text).nodes)
    (same : n.place = m.place) : n = m := by
  rw [parse_nodes] at here there
  obtain ⟨p, foundP, rfl⟩ := List.mem_map.mp here
  obtain ⟨q, foundQ, rfl⟩ := List.mem_map.mp there
  have atP := List.mem_zipIdx_iff_getElem?.mp foundP
  have atQ := List.mem_zipIdx_iff_getElem?.mp foundQ
  have places : p.2 = q.2 := same
  rw [places, atQ] at atP
  have spans : q.1 = p.1 := Option.some.inj atP
  unfold nodeOf
  rw [places, spans]

theorem leadingFrom_subset {nodes : List Node} {n : Node} (member : n ∈ Unit.leadingFrom nodes) :
    n ∈ nodes := by
  induction nodes with
  | nil => exact member
  | cons head rest ih =>
    unfold Unit.leadingFrom at member
    split at member
    · rcases List.mem_cons.mp member with rfl | behind
      · exact List.mem_cons_self
      · exact List.mem_cons_of_mem _ (ih behind)
    · split at member
      · exact List.mem_cons_of_mem _ (ih member)
      · cases member

theorem descriptorComments_parts {u : Unit} {d : Node} (chosen : d ∈ u.descriptorComments) :
    d ∈ u.nodes ∧ d.kind = .lineDoc := by
  obtain ⟨leads, kind⟩ := List.mem_filter.mp chosen
  exact ⟨leadingFrom_subset leads, of_decide_eq_true kind⟩

section Excision

variable {g : Grammar} {content : ByteArray} {text : String} {d : Node}

end Excision

end InlineProject.Source

namespace InlineProject.Expansion

variable {σ : Type} {runner : Git.Runner σ} {w w' : World σ} {e : Expansion}
  {source output : Path} {d : Source.Node}

def ready : Git.Runner Unit := fun _ s d => (.output "c1", s, d)

end InlineProject.Expansion
