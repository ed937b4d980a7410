import Mathlib
import InlineProject.Proofs.MarkupScopes
/-!
A written tree is read as the tree it was written from, up to what the reader does not keep: the comments,
where they are dropped, and that an element without a namespace is in the default one.
-/

namespace InlineProject.Xml

variable {marks : Marks} {s : Scope} {default : Option String} {keep : Comments} {fuel : Nat} {c : Char}
  {cs rest text : List Char} {pieces pieces' : List Piece} {n : Node}

/-! ### Pieces -/

theorem assemble_append (front : List Piece) (same : assemble pieces = assemble pieces') :
    assemble (front ++ pieces) = assemble (front ++ pieces') := by
  induction front with
  | nil => exact same
  | cons p front ih =>
    cases p with
    | text cs => rw [List.cons_append, List.cons_append, assemble, assemble, ih]
    | node n => rw [List.cons_append, List.cons_append, assemble, assemble, ih]

theorem assemble_texts {one other : List Char} :
    assemble (.text one :: .text other :: pieces) = assemble (.text (one ++ other) :: pieces) := by
  simp only [assemble, List.append_assoc]

theorem assemble_nothing : assemble (.text [] :: pieces) = assemble pieces := rfl

-- The content at the start of a text, however it is cut into pieces, and where it ends.
def Reads (keep : Comments) (s : Scope) (cs : List Char) (pieces : List Piece) (rest : List Char) : Prop :=
  ∀ fuel, cs.length < fuel → ∃ found, content? keep .empty fuel s [] cs = some (found, rest) ∧
    assemble found = assemble pieces

theorem Reads.congr (reads : Reads keep s cs pieces rest) (same : assemble pieces = assemble pieces') :
    Reads keep s cs pieces' rest := by
  intro fuel enough
  obtain ⟨found, read, assembled⟩ := reads fuel enough
  exact ⟨found, read, assembled.trans same⟩

-- One call reads the front of a text into some pieces, and leaves the rest to the next.
theorem Reads.step {front : List Char} {first : List Piece} (some : front ≠ [])
    (call : ∀ fuel, content? keep .empty (fuel + 1) s [] (front ++ cs)
      = (content? keep .empty fuel s [] cs).map fun found => (first ++ found.1, found.2))
    (reads : Reads keep s cs pieces rest) : Reads keep s (front ++ cs) (first ++ pieces) rest := by
  intro fuel enough
  have positive : 0 < front.length := List.length_pos_iff.mpr some
  rw [List.length_append] at enough
  cases fuel with
  | zero => exact absurd enough (Nat.not_lt_zero _)
  | succ fuel =>
    obtain ⟨found, read, assembled⟩ := reads fuel (by omega)
    refine ⟨first ++ found, ?_, assemble_append first assembled⟩
    rw [call, read]
    rfl

theorem reads_end : Reads keep s ('<' :: '/' :: rest) [] ('<' :: '/' :: rest) := by
  intro fuel enough
  cases fuel with
  | zero => exact absurd enough (Nat.not_lt_zero _)
  | succ fuel => exact ⟨[], rfl, rfl⟩

/-! ### Text -/

def Plain (c : Char) : Prop := c ≠ '&' ∧ c ≠ '<' ∧ c ≠ '>'

-- Where a run of plain characters ends.
def Breaks (cs : List Char) : Prop := ∀ c ∈ cs.head?, c = '<' ∨ c = '&'

theorem Breaks.less : Breaks ('<' :: cs) := by
  rintro c ⟨⟩
  exact .inl rfl

theorem Breaks.amp : Breaks ('&' :: cs) := by
  rintro c ⟨⟩
  exact .inr rfl

theorem hasSectionEnd_plain {run : List Char} (plain : ∀ c ∈ run, Plain c) : hasSectionEnd run = false := by
  induction run with
  | nil => rfl
  | cons c run ih =>
    rw [hasSectionEnd, Bool.or_eq_false_iff]
    refine ⟨?_, ih fun x member => plain x (List.mem_cons_of_mem _ member)⟩
    rw [Bool.eq_false_iff]
    intro begins
    obtain ⟨back, split⟩ := List.isPrefixOf_iff_prefix.mp begins
    have member : '>' ∈ c :: run := split ▸ List.mem_append_left _ (by decide)
    exact (plain '>' member).2.2 rfl

theorem content?_run {d : Doctype} {opened : List String} {run : List Char} (some : run ≠ [])
    (plain : ∀ c ∈ run, Plain c) (breaks : Breaks cs) :
    content? keep d (fuel + 1) s opened (run ++ cs)
      = (content? keep d fuel s opened cs).map fun found => ([.text run] ++ found.1, found.2) := by
  have taken : (run ++ cs).takeWhile (fun c => c != '<' && c != '&') = run := by
    rw [List.takeWhile_append_of_pos]
    · cases cs with
      | nil => simp
      | cons x more =>
        rcases breaks x rfl with rfl | rfl <;> simp
    · intro c member
      have := plain c member
      simp [this.1, this.2.1]
  have dropped : (run ++ cs).drop run.length = cs := List.drop_left
  obtain ⟨c, more, rfl⟩ := List.exists_cons_of_ne_nil some
  obtain ⟨amp, less, _⟩ := plain c List.mem_cons_self
  rw [List.cons_append] at taken dropped ⊢
  rw [content?]
  · dsimp only
    rw [taken, hasSectionEnd_plain plain, dropped]
    cases content? keep d fuel s opened cs <;> rfl
  · exact List.cons_ne_nil _ _
  · exact fun _ same => less (List.cons.inj same).1
  · exact fun _ same => less (List.cons.inj same).1
  · exact fun _ same => less (List.cons.inj same).1
  · exact fun _ same => less (List.cons.inj same).1
  · exact fun _ same => less (List.cons.inj same).1
  · exact fun _ same => amp (List.cons.inj same).1

theorem content?_reference {d : Doctype} {opened : List String} {name : List Char}
    (read : reference? (name ++ cs) = some (.char c, cs)) :
    content? keep d (fuel + 1) s opened ('&' :: name ++ cs)
      = (content? keep d fuel s opened cs).map fun found => ([.text [c]] ++ found.1, found.2) := by
  rw [List.cons_append, content?, read]
  dsimp only [Option.bind_eq_bind, Option.bind_some]
  cases content? keep d fuel s opened cs <;> rfl

theorem reads_run {run : List Char} (plain : ∀ c ∈ run, Plain c) (breaks : Breaks cs)
    (reads : Reads keep s cs pieces rest) : Reads keep s (run ++ cs) (.text run :: pieces) rest := by
  by_cases none : run = []
  · rw [none]
    exact reads.congr assemble_nothing.symm
  · exact reads.step none fun fuel => content?_run none plain breaks

-- `run` are the plain characters before a text, which are read together with its first ones.
theorem reads_text_behind {run : List Char} (plain : ∀ c ∈ run, Plain c) (breaks : Breaks cs)
    (reads : Reads keep s cs pieces rest) :
    Reads keep s (run ++ (text.flatMap escapeText ++ cs)) (.text (run ++ text) :: pieces) rest := by
  induction text generalizing run with
  | nil =>
    rw [List.append_nil]
    exact reads_run plain breaks reads
  | cons c text ih =>
    have escape := escapeText_escape c
    rw [List.flatMap_cons]
    generalize escapeText c = written at escape ⊢
    cases escape with
    | plain allowed =>
      have longer : ∀ x ∈ run ++ [c], Plain x :=
        List.forall_mem_append.mpr ⟨plain, List.forall_mem_singleton.mpr allowed⟩
      simpa using ih longer
    | @reference name read _ _ =>
      have behind : Reads keep s (text.flatMap escapeText ++ cs) (.text text :: pieces) rest :=
        ih (fun _ member => absurd member List.not_mem_nil)
      have referred : Reads keep s ('&' :: name ++ (text.flatMap escapeText ++ cs))
          ([.text [c]] ++ .text text :: pieces) rest :=
        behind.step (List.cons_ne_nil _ _) fun fuel => content?_reference (read _)
      rw [List.append_assoc]
      refine (reads_run plain .amp referred).congr ?_
      rw [List.singleton_append, assemble_texts, assemble_texts, List.append_assoc]
      rfl

theorem reads_text (breaks : Breaks cs) (reads : Reads keep s cs pieces rest) {t : String} :
    Reads keep s (escapedText t ++ cs) (.text t.toList :: pieces) rest :=
  reads_text_behind (fun _ member => absurd member List.not_mem_nil) breaks reads

/-! ### Nodes -/

theorem content?_comment (single : SingleHyphens text) (quiet : '\r' ∉ text) (fuel : Nat) :
    content? keep .empty (fuel + 1) s [] ("<!--".toList ++ text ++ "-->".toList ++ cs)
      = (content? keep .empty fuel s [] cs).map fun found =>
          ((if keep = .kept then [.node (.comment (String.ofList text) "")] else []) ++ found.1, found.2) := by
  have split : "<!--".toList ++ text ++ "-->".toList ++ cs
      = '<' :: '!' :: '-' :: '-' :: (text ++ '-' :: '-' :: '>' :: cs) := by
    simp
  have read : comment? (text ++ '-' :: '-' :: '>' :: cs) = some (text, cs) := by
    unfold comment?
    rw [until?_singleHyphens single]
    rfl
  rw [split, content?, read]
  dsimp only [Option.bind_eq_bind, Option.bind_some]
  rw [unifyBreaks_self quiet]
  cases content? keep .empty fuel s [] cs with
  | none => rfl
  | some found =>
    dsimp only [Option.bind_some, Option.map_some]
    split <;> rfl

-- An opening bracket that begins no end tag, declaration or instruction begins an element.
theorem content?_element {d : Doctype} {opened : List String} (slash : c ≠ '/') (mark : c ≠ '!')
    (question : c ≠ '?') :
    content? keep d (fuel + 1) s opened ('<' :: c :: cs)
      = (element? keep d fuel s opened (c :: cs)).bind fun element =>
          (content? keep d fuel s opened element.2).map fun found => (.node element.1 :: found.1, found.2) := by
  rw [content?]
  · cases element? keep d fuel s opened (c :: cs) with
    | none => rfl
    | some element =>
      dsimp only [Option.bind_eq_bind, Option.bind_some]
      cases content? keep d fuel s opened element.2 <;> rfl
  · exact fun _ same => slash (List.cons.inj same).1
  · exact fun _ same => mark (List.cons.inj same).1
  · exact fun _ same => mark (List.cons.inj same).1
  · exact fun _ same => question (List.cons.inj same).1

-- The element behind an opening bracket.
def ReadsElement (keep : Comments) (s : Scope) (cs : List Char) (n : Node) (rest : List Char) : Prop :=
  ∀ fuel, cs.length < fuel → element? keep .empty fuel s [] cs = some (n, rest)

-- The text of a tag behind its opening bracket.
def Begins (cs : List Char) : Prop := ∃ c more, cs = c :: more ∧ startsName c = true

theorem Reads.element {inside behind : List Char} (begins : Begins inside)
    (element : ReadsElement keep s inside n behind) (shorter : behind.length < inside.length)
    (reads : Reads keep s behind pieces rest) : Reads keep s ('<' :: inside) (.node n :: pieces) rest := by
  obtain ⟨c, more, rfl, starts⟩ := begins
  intro fuel enough
  rw [List.length_cons] at enough
  cases fuel with
  | zero => exact absurd enough (Nat.not_lt_zero _)
  | succ fuel =>
    obtain ⟨found, read, assembled⟩ := reads fuel (by omega)
    refine ⟨.node n :: found, ?_, assemble_append [.node n] assembled⟩
    have bounds := startsName_bounds starts
    have apart (x : Char) (low : x.toNat < 0x41) : c ≠ x := by
      rintro rfl
      omega
    rw [content?_element (apart '/' (by decide)) (apart '!' (by decide)) (apart '?' (by decide)),
      element fuel (by omega)]
    dsimp only [Option.bind_some]
    rw [read]
    rfl

/-! ### Elements -/

variable {bindings : List (String × String)} {name : Name} {attributes : List (Name × String)}

-- An element as its tag and its content make it.
def elementOf (default : Option String) (name : Name) (attributes : List (Name × String))
    (pieces : List Piece) : Node :=
  .element (name.inDefault default) attributes (String.ofList (assemble pieces).1) (assemble pieces).2 ""

def openTag (marks : Marks) (bindings : List (String × String)) (name : Name)
    (attributes : List (Name × String)) (closed : Bool) (rest : List Char) : List Char :=
  (marks.written name).chars ++
    (writtenAttributes (tagAttributes marks bindings attributes) ++ (ending closed ++ rest))

theorem readsElement_closed (opens : Opens marks default s bindings name attributes) :
    ReadsElement keep s (openTag marks bindings name attributes true rest)
      (elementOf default name attributes []) rest := by
  intro fuel enough
  cases fuel with
  | zero => exact absurd enough (Nat.not_lt_zero _)
  | succ fuel =>
    rw [element?, openTag, tag?_tagged opens.toTagged]
    dsimp only [Option.bind_eq_bind, Option.bind_some]
    rw [open?_written opens]
    rfl

theorem readsElement_open (opens : Opens marks default s bindings name attributes) {inside : List Char}
    (content : Reads keep (bindings.reverse ++ s) inside pieces
      ('<' :: '/' :: ((marks.written name).chars ++ '>' :: rest))) :
    ReadsElement keep s (openTag marks bindings name attributes false inside)
      (elementOf default name attributes pieces) rest := by
  intro fuel enough
  have named : (marks.written name).Proper := written_proper opens.series opens.covered opens.named
  obtain ⟨c, more, split, _⟩ := chars_starts named
  have shorter : inside.length < (openTag marks bindings name attributes false inside).length - 1 := by
    rw [openTag, split]
    simp only [List.length_cons, List.length_append, ending]
    simp only [Bool.false_eq_true, if_false, List.length_singleton]
    omega
  cases fuel with
  | zero => exact absurd enough (Nat.not_lt_zero _)
  | succ fuel =>
    obtain ⟨found, read, assembled⟩ := content fuel (by omega)
    have closing : name? ((marks.written name).chars ++ '>' :: rest) = some (marks.written name, '>' :: rest) :=
      name?_chars named (.cons (by decide) (by decide))
    rw [element?, openTag, tag?_tagged opens.toTagged]
    dsimp only [Option.bind_eq_bind, Option.bind_some]
    rw [open?_written opens]
    dsimp only [Option.bind_some]
    rw [if_neg Bool.false_ne_true, read]
    dsimp only [Option.bind_some]
    have slash : after? "</" ('<' :: '/' :: ((marks.written name).chars ++ '>' :: rest))
        = some ((marks.written name).chars ++ '>' :: rest) := rfl
    have angle : after? ">" (skipSpaces ('>' :: rest)) = some rest := rfl
    rw [slash]
    dsimp only [Option.bind_some]
    rw [closing]
    dsimp only [Option.bind_some]
    rw [angle]
    dsimp only [Option.bind_some]
    rw [if_pos rfl, assembled]
    rfl

/-! ### Trees -/

-- What the reader does not keep of a tree: comments where they are dropped, and which elements had no
-- namespace before there was a default one.
mutual
def Node.reread (keep : Comments) (default : Option String) : Node → Node
  | .comment text _ => .comment text ""
  | .element name attributes text children _ =>
      elementOf default name attributes (.text text.toList :: rereadAll keep default children)

def rereadAll (keep : Comments) (default : Option String) : List Node → List Piece
  | [] => []
  | n :: rest =>
      (if keep = .kept ∨ n.name?.isSome = true then [.node (n.reread keep default)] else []) ++
        .text n.tail.toList :: rereadAll keep default rest
end

-- The names of a tree can be written.
def Node.Covered (marks : Marks) (n : Node) : Prop := ∀ name ∈ n.names, name.Covered marks

-- Reading a written node, whatever comes behind it.
def NodeRead (keep : Comments) (marks : Marks) (default : Option String) (s : Scope) (n : Node) : Prop :=
  ∀ cs pieces rest, Breaks cs → Reads keep s cs pieces rest →
    Reads keep s (n.write marks [] ++ cs) (rereadAll keep default [n] ++ pieces) rest

theorem write_starts (n : Node) (marks : Marks) (declared : List Char) : ∃ more, n.write marks declared = '<' :: more := by
  cases n with
  | comment text tail => exact ⟨_, rfl⟩
  | element name attributes text children tail =>
    rw [Node.write]
    dsimp only
    split
    · exact ⟨_, rfl⟩
    · exact ⟨_, rfl⟩

theorem writeAll_breaks {nodes : List Node} (breaks : Breaks cs) : Breaks (writeAll marks nodes ++ cs) := by
  cases nodes with
  | nil => exact breaks
  | cons n rest =>
    obtain ⟨more, split⟩ := write_starts n marks []
    rw [writeAll, split]
    exact .less

theorem writeAll_read {nodes : List Node} (each : ∀ n ∈ nodes, NodeRead keep marks default s n)
    (breaks : Breaks cs) (reads : Reads keep s cs pieces rest) :
    Reads keep s (writeAll marks nodes ++ cs) (rereadAll keep default nodes ++ pieces) rest := by
  induction nodes with
  | nil => exact reads
  | cons n nodes ih =>
    have behind := ih fun m member => each m (List.mem_cons_of_mem _ member)
    have first := each n List.mem_cons_self _ _ _ (writeAll_breaks breaks) behind
    rw [writeAll, List.append_assoc]
    simpa [rereadAll] using first

-- An element behind its opening bracket, up to its tail.
def elementText (marks : Marks) (bindings : List (String × String)) (name : Name)
    (attributes : List (Name × String)) (t : String) (children : List Node) (behind : List Char) :
    List Char :=
  if t.isEmpty && children.isEmpty then openTag marks bindings name attributes true behind
  else
    openTag marks bindings name attributes false (escapedText t ++ (writeAll marks children ++
      ('<' :: '/' :: ((marks.written name).chars ++ '>' :: behind))))

theorem write_element (tagged : Tagged marks bindings name attributes) (t tail : String)
    (children : List Node) (rest : List Char) :
    (Node.element name attributes t children tail).write marks (writtenAttributes (bindings.map declaration))
        ++ rest
      = '<' :: elementText marks bindings name attributes t children (escapedText tail ++ rest) := by
  have given : (attributes.flatMap fun a => attributeText (marks.write a.1) a.2)
      = writtenAttributes (attributes.map (writtenAttribute marks)) := by
    rw [writtenAttributes, List.flatMap_map]
    refine List.flatMap_congr fun a member => ?_
    rw [(written_exact tagged.series (tagged.covers a member)).2]
    rfl
  rw [Node.write, elementText]
  dsimp only
  rw [(written_exact tagged.series tagged.covered).2, given]
  cases t.isEmpty && children.isEmpty with
  | true => simp [openTag, tagAttributes, writtenAttributes, ending]
  | false => simp [openTag, tagAttributes, writtenAttributes, ending]

theorem elementText_begins (tagged : Tagged marks bindings name attributes) (t : String)
    (children : List Node) (behind : List Char) :
    Begins (elementText marks bindings name attributes t children behind) ∧
      behind.length < (elementText marks bindings name attributes t children behind).length := by
  obtain ⟨c, more, split, starts⟩ :=
    chars_starts (written_proper tagged.series tagged.covered tagged.named)
  unfold elementText openTag
  rw [split]
  split
  · refine ⟨⟨c, _, rfl, starts⟩, ?_⟩
    simp only [List.length_append, List.length_cons]
    omega
  · refine ⟨⟨c, _, rfl, starts⟩, ?_⟩
    simp only [List.length_append, List.length_cons]
    omega

theorem element_read (opens : Opens marks default s bindings name attributes) (t tail : String)
    {children : List Node} (each : ∀ n ∈ children, NodeRead keep marks default (bindings.reverse ++ s) n) :
    ReadsElement keep s (elementText marks bindings name attributes t children rest)
      ((Node.element name attributes t children tail).reread keep default) rest := by
  rw [Node.reread]
  unfold elementText
  split
  · rename_i nothing
    obtain ⟨noText, noChildren⟩ := Bool.and_eq_true_iff.mp nothing
    rw [String.isEmpty_iff.mp noText, List.isEmpty_iff.mp noChildren]
    exact readsElement_closed opens
  · refine readsElement_open opens ?_
    have ends : Reads keep (bindings.reverse ++ s) ('<' :: '/' :: ((marks.written name).chars ++ '>' :: rest)) []
        ('<' :: '/' :: ((marks.written name).chars ++ '>' :: rest)) := reads_end
    have inside := writeAll_read each .less ends
    rw [List.append_nil] at inside
    exact reads_text (writeAll_breaks .less) inside

theorem Tagged.plain (series : Series marks) (named : name.Proper)
    (given : ∀ a ∈ attributes, Attribute.Proper a)
    (covered : ∀ n ∈ name :: attributes.map (·.1), n.Covered marks) :
    Tagged marks [] name attributes where
  series := series
  named := named
  covered := covered name List.mem_cons_self
  given := given
  covers := fun _ member => covered _ (List.mem_cons_of_mem _ (List.mem_map_of_mem member))
  labels := fun _ impossible => absurd impossible List.not_mem_nil

theorem Opens.plain (tagged : Tagged marks [] name attributes)
    (distinct : (attributes.map Prod.fst).Nodup) (scope : s.Reads marks default) :
    Opens marks default s [] name attributes where
  toTagged := tagged
  distinct := distinct
  may := fun _ impossible => absurd impossible List.not_mem_nil
  single := List.nodup_nil
  reads := scope

theorem node_read (series : Series marks) (scope : s.Reads marks default) (proper : n.Proper)
    (covered : n.Covered marks) : NodeRead keep marks default s n := by
  induction proper with
  | @comment text tail single quiet _ _ =>
    intro cs pieces rest breaks reads
    have behind : Reads keep s (escapedText tail ++ cs) (.text tail.toList :: pieces) rest :=
      reads_text breaks reads
    have read := behind.step (by simp) (content?_comment single quiet)
    rw [String.ofList_toList] at read
    rw [Node.write, List.append_assoc]
    refine read.congr (congrArg assemble ?_)
    simp [rereadAll, Node.reread, Node.name?, Node.tail]
  | @element name attributes text children tail named given distinct _ _ _ ih =>
    intro cs pieces rest breaks reads
    rw [Node.Covered, Node.names] at covered
    have tagged : Tagged marks [] name attributes :=
      .plain series named given fun n member => covered n (List.mem_append_left _ member)
    have each : ∀ n ∈ children, NodeRead keep marks default s n := fun n member =>
      ih n member fun m among => covered m (List.mem_append_right _ (mem_namesAll.mpr ⟨n, member, among⟩))
    obtain ⟨begins, shorter⟩ := elementText_begins tagged text children (escapedText tail ++ cs)
    have read := Reads.element begins (element_read (.plain tagged distinct scope) text tail each) shorter
      (reads_text breaks reads)
    rw [← write_element tagged] at read
    refine read.congr (congrArg assemble ?_)
    simp [rereadAll, Node.name?, Node.tail]

end InlineProject.Xml
