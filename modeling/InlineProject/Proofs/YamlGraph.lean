import InlineProject.Proofs.YamlTokens
import InlineProject.Yaml.Node
/-!
How the reading of a node graph fails: the tokens do not fit together, or the text could not be read
to the token that was asked for.
-/

namespace InlineProject.Yaml

/-! ### Actions that fail in some ways only -/

section Keeps

variable {σ α β : Type}

-- An action keeps an invariant of its state, and its failures are of some sort.
def Keeps (inv : σ → Prop) (sort : Error → Prop) (m : StateT σ (Except Error) α) : Prop :=
  ∀ s, inv s → match m s with
    | .ok (_, s') => inv s'
    | .error e => sort e

variable {inv : σ → Prop} {sort : Error → Prop}

theorem keeps_pure (x : α) : Keeps inv sort (pure x : StateT σ (Except Error) α) :=
  fun _ holds => holds

theorem keeps_refuse {e : Error} (sorted : sort e) :
    Keeps inv sort (fun _ => .error e : StateT σ (Except Error) α) := fun _ _ => sorted

theorem keeps_bind {m : StateT σ (Except Error) α} {f : α → StateT σ (Except Error) β}
    (first : Keeps inv sort m) (later : ∀ x, Keeps inv sort (f x)) : Keeps inv sort (m >>= f) := by
  intro s holds
  have run : (m >>= f) s = m s >>= fun r => f r.1 r.2 := rfl
  rw [run]
  have kept := first s holds
  cases done : m s with
  | error e =>
    rw [done] at kept
    exact kept
  | ok r =>
    rw [done] at kept
    exact later r.1 r.2 kept

-- What comes behind a look at the state knows the invariant of it.
theorem keeps_get_bind {f : σ → StateT σ (Except Error) β}
    (later : ∀ s, inv s → Keeps inv sort (f s)) :
    Keeps inv sort ((get : StateT σ (Except Error) σ) >>= f) :=
  fun s holds => later s holds s holds

theorem keeps_modify {f : σ → σ} (kept : ∀ s, inv s → inv (f s)) :
    Keeps inv sort (modify f : StateT σ (Except Error) Unit) := fun s holds => kept s holds

theorem keeps_set {s : σ} (kept : inv s) :
    Keeps inv sort (set s : StateT σ (Except Error) PUnit) := fun _ _ => kept

theorem keeps_ite {p : Prop} [Decidable p] {a b : StateT σ (Except Error) α}
    (yes : Keeps inv sort a) (no : Keeps inv sort b) : Keeps inv sort (if p then a else b) := by
  split
  · exact yes
  · exact no

-- A check in front of an action.
theorem keeps_guard {p : Prop} [Decidable p] {m : StateT σ (Except Error) Unit}
    {f : Unit → StateT σ (Except Error) β} (check : Keeps inv sort m)
    (later : ∀ x, Keeps inv sort (f x)) : Keeps inv sort (if p then m >>= f else f ()) :=
  keeps_ite (keeps_bind check later) (later ())

-- Two ways to one action.
theorem keeps_join {p : Prop} [Decidable p] {a b : StateT σ (Except Error) α}
    {f : α → StateT σ (Except Error) β} (yes : Keeps inv sort a) (no : Keeps inv sort b)
    (later : ∀ x, Keeps inv sort (f x)) :
    Keeps inv sort (if p then a >>= f else b >>= f) :=
  keeps_ite (keeps_bind yes later) (keeps_bind no later)

-- What becomes of a run of its own.
theorem keeps_failure {m : StateT σ (Except Error) α} {s : σ} {f : α × σ → β} {e : Error}
    (kept : Keeps inv sort m) (holds : inv s)
    (failed : (m.run s >>= fun r => .ok (f r)) = .error e) : sort e := by
  have run := kept s holds
  change (m s >>= fun r => .ok (f r)) = .error e at failed
  cases done : m s with
  | error other =>
    rw [done] at run failed
    cases failed
    exact run
  | ok r =>
    rw [done] at failed
    cases failed

end Keeps

/-! ### From tokens to nodes -/

namespace Build

variable {α : Type} {failure : Option Error}

-- Besides malformed texts there is the failure of the scanner, which stays what it is.
abbrev Sound (failure : Option Error) (m : Build α) : Prop :=
  Keeps (fun b : Builder => b.failure = failure)
    (fun e => e.isMalformed = true ∨ failure = some e) m

theorem badStructure_sound : Sound failure (refuse .badStructure : Build α) :=
  keeps_refuse (.inl rfl)

theorem peek_sound : Sound failure peek := by
  intro b same
  unfold peek
  cases tokens : b.tokens with
  | cons t rest => exact same
  | nil =>
    cases failed : b.failure with
    | none => exact same
    | some e => exact .inr (same.symm.trans failed)

theorem drop_sound : Sound failure drop := keeps_modify fun _ same => same

theorem isNext_sound {t : Token} : Sound failure (isNext t) :=
  keeps_bind peek_sound fun _ => keeps_pure _

theorem accept_sound {t : Token} : Sound failure (accept t) := by
  unfold accept
  refine keeps_bind isNext_sound fun next => ?_
  exact keeps_ite (keeps_bind drop_sound fun _ => keeps_pure _) (keeps_pure _)

theorem expect_sound {t : Token} : Sound failure (expect t) := by
  unfold expect
  refine keeps_bind accept_sound fun accepted => ?_
  exact keeps_ite badStructure_sound (keeps_pure _)

theorem addNode_sound {n : Node} : Sound failure (addNode n) := fun _ same => same

theorem setContent_sound {id : Nat} {c : Content} : Sound failure (setContent id c) :=
  keeps_modify fun _ same => same

theorem nothing_sound : Sound failure nothing := addNode_sound

theorem setAnchor_sound {anchor : Option String} {id : Nat} :
    Sound failure (setAnchor anchor id) := by
  unfold setAnchor
  split
  · exact keeps_pure _
  · exact keeps_modify fun _ same => same

theorem aliased_sound {name : String} : Sound failure (aliased name) := by
  unfold aliased
  refine keeps_get_bind fun b _ => ?_
  split
  · exact keeps_pure _
  · exact keeps_refuse (.inl rfl)

theorem tagOf_sound {handle : Option String} {suffix : String} :
    Sound failure (tagOf handle suffix) := by
  unfold tagOf
  split
  · exact keeps_pure _
  · refine keeps_get_bind fun b _ => ?_
    split
    · exact keeps_pure _
    · exact badStructure_sound

theorem anchor_sound : Sound failure anchor? := by
  unfold anchor?
  refine keeps_bind peek_sound fun next => ?_
  split
  · exact keeps_bind drop_sound fun _ => keeps_pure _
  · exact keeps_pure _

theorem tag_sound : Sound failure tag? := by
  unfold tag?
  refine keeps_bind peek_sound fun next => ?_
  split
  · refine keeps_bind drop_sound fun _ => ?_
    exact keeps_bind tagOf_sound fun _ => keeps_pure _
  · exact keeps_pure _

theorem properties_sound : Sound failure properties := by
  unfold properties
  refine keeps_bind anchor_sound fun anchor => ?_
  split
  · exact keeps_bind tag_sound fun _ => keeps_pure _
  · refine keeps_bind tag_sound fun tag => ?_
    split
    · exact keeps_bind anchor_sound fun _ => keeps_pure _
    · exact keeps_pure _

theorem collection_sound {anchor : Option String} {kind : Kind} {content : Build Content}
    (inner : Sound failure content) : Sound failure (collection anchor kind content) := by
  unfold collection
  refine keeps_bind addNode_sound fun id => ?_
  refine keeps_bind setAnchor_sound fun _ => ?_
  refine keeps_bind inner fun c => ?_
  exact keeps_bind setContent_sound fun _ => keeps_pure _

-- What is known of all readers when it is known of those with less fuel.
structure ReadersSound (failure : Option Error) (fuel : Nat) : Prop where
  node : ∀ block indentless, Sound failure (node block indentless fuel)
  blockItems : Sound failure (blockItems fuel)
  plainItems : Sound failure (plainItems fuel)
  blockPart : Sound failure (blockPart fuel)
  blockPairs : Sound failure (blockPairs fuel)
  flowPart : ∀ stops, Sound failure (flowPart stops fuel)
  flowItems : ∀ first, Sound failure (flowItems first fuel)
  flowPairs : ∀ first, Sound failure (flowPairs first fuel)

section Readers

variable {fuel : Nat} (readers : ReadersSound failure fuel)

include readers

theorem node_sound {block indentless : Bool} :
    Sound failure (node block indentless (fuel + 1)) := by
  unfold node
  refine keeps_bind peek_sound fun next => ?_
  split
  · exact keeps_bind drop_sound fun _ => aliased_sound
  · refine keeps_bind properties_sound fun ⟨anchor, tag⟩ => ?_
    refine keeps_get_bind fun b _ => ?_
    dsimp only
    refine keeps_guard (keeps_refuse (.inl rfl)) fun _ => ?_
    refine keeps_bind peek_sound fun next => ?_
    split
    · refine keeps_bind drop_sound fun _ => ?_
      refine keeps_bind addNode_sound fun id => ?_
      exact keeps_bind setAnchor_sound fun _ => keeps_pure _
    · refine keeps_bind drop_sound fun _ => collection_sound ?_
      exact keeps_bind (readers.flowItems true) fun _ => keeps_pure _
    · refine keeps_bind drop_sound fun _ => collection_sound ?_
      exact keeps_bind (readers.flowPairs true) fun _ => keeps_pure _
    · refine keeps_ite (collection_sound ?_) (keeps_ite ?_ (keeps_ite ?_ (keeps_ite ?_ ?_)))
      · exact keeps_bind readers.plainItems fun _ => keeps_pure _
      · refine keeps_bind drop_sound fun _ => collection_sound ?_
        exact keeps_bind readers.blockItems fun _ => keeps_pure _
      · refine keeps_bind drop_sound fun _ => collection_sound ?_
        exact keeps_bind readers.blockPairs fun _ => keeps_pure _
      · refine keeps_bind addNode_sound fun id => ?_
        exact keeps_bind setAnchor_sound fun _ => keeps_pure _
      · exact badStructure_sound

theorem blockItems_sound : Sound failure (blockItems (fuel + 1)) := by
  unfold blockItems
  refine keeps_bind accept_sound fun accepted => keeps_ite ?_ ?_
  · refine keeps_bind peek_sound fun next => ?_
    refine keeps_join nothing_sound (readers.node true false) fun first => ?_
    exact keeps_bind readers.blockItems fun _ => keeps_pure _
  · exact keeps_bind expect_sound fun _ => keeps_pure _

theorem plainItems_sound : Sound failure (plainItems (fuel + 1)) := by
  unfold plainItems
  refine keeps_bind accept_sound fun accepted => keeps_ite ?_ (keeps_pure _)
  refine keeps_bind peek_sound fun next => ?_
  refine keeps_join nothing_sound (readers.node true false) fun first => ?_
  exact keeps_bind readers.plainItems fun _ => keeps_pure _

theorem blockPart_sound : Sound failure (blockPart (fuel + 1)) := by
  unfold blockPart
  refine keeps_bind peek_sound fun next => ?_
  exact keeps_ite nothing_sound (readers.node true true)

theorem blockPairs_sound : Sound failure (blockPairs (fuel + 1)) := by
  unfold blockPairs
  refine keeps_bind peek_sound fun next => keeps_ite ?_ (keeps_ite ?_ badStructure_sound)
  · exact keeps_bind drop_sound fun _ => keeps_pure _
  · refine keeps_bind accept_sound fun marked => ?_
    refine keeps_join readers.blockPart badStructure_sound fun key => ?_
    refine keeps_bind accept_sound fun valued => ?_
    refine keeps_join readers.blockPart nothing_sound fun value => ?_
    exact keeps_bind readers.blockPairs fun _ => keeps_pure _

theorem flowPart_sound {stops : List Token} : Sound failure (flowPart stops (fuel + 1)) := by
  unfold flowPart
  refine keeps_bind peek_sound fun next => ?_
  split
  · exact keeps_ite nothing_sound (readers.node false false)
  · exact readers.node false false

theorem flowItems_sound {first : Bool} : Sound failure (flowItems first (fuel + 1)) := by
  unfold flowItems
  refine keeps_bind accept_sound fun ended => keeps_ite (keeps_pure _) ?_
  dsimp only
  refine keeps_guard expect_sound fun _ => ?_
  refine keeps_bind accept_sound fun marked => keeps_ite ?_ ?_
  · refine keeps_bind addNode_sound fun id => ?_
    refine keeps_bind (readers.flowPart _) fun key => ?_
    refine keeps_bind accept_sound fun valued => ?_
    refine keeps_join (readers.flowPart _) nothing_sound fun value => ?_
    refine keeps_bind setContent_sound fun _ => ?_
    exact keeps_bind (readers.flowItems false) fun _ => keeps_pure _
  · refine keeps_bind accept_sound fun ended => keeps_ite (keeps_pure _) ?_
    refine keeps_bind (readers.node false false) fun item => ?_
    exact keeps_bind (readers.flowItems false) fun _ => keeps_pure _

theorem flowPairs_sound {first : Bool} : Sound failure (flowPairs first (fuel + 1)) := by
  unfold flowPairs
  refine keeps_bind accept_sound fun ended => keeps_ite (keeps_pure _) ?_
  dsimp only
  refine keeps_guard expect_sound fun _ => ?_
  refine keeps_bind accept_sound fun marked => keeps_ite ?_ ?_
  · refine keeps_bind (readers.flowPart _) fun key => ?_
    refine keeps_bind accept_sound fun valued => ?_
    refine keeps_join (readers.flowPart _) nothing_sound fun value => ?_
    exact keeps_bind (readers.flowPairs false) fun _ => keeps_pure _
  · refine keeps_bind accept_sound fun ended => keeps_ite (keeps_pure _) ?_
    refine keeps_bind (readers.node false false) fun key => ?_
    refine keeps_bind nothing_sound fun value => ?_
    exact keeps_bind (readers.flowPairs false) fun _ => keeps_pure _

end Readers

-- The induction is on the fuel; without fuel every reader gives up.
theorem readers_sound (fuel : Nat) : ReadersSound failure fuel := by
  induction fuel with
  | zero =>
    refine ⟨?_, badStructure_sound, badStructure_sound, badStructure_sound, badStructure_sound,
      ?_, ?_, ?_⟩
    · intro block indentless
      exact badStructure_sound
    · intro stops
      exact badStructure_sound
    · intro first
      exact badStructure_sound
    · intro first
      exact badStructure_sound
  | succ fuel ih =>
    exact ⟨fun _ _ => node_sound ih, blockItems_sound ih, plainItems_sound ih, blockPart_sound ih,
      blockPairs_sound ih, fun _ => flowPart_sound ih, fun _ => flowItems_sound ih,
      fun _ => flowPairs_sound ih⟩

/-! ### Documents -/

theorem addDirective_sound {versioned : Bool} {d : Directive} :
    Sound failure (addDirective versioned d) := by
  unfold addDirective
  split
  · exact keeps_ite badStructure_sound (keeps_pure _)
  · refine keeps_get_bind fun b _ => ?_
    dsimp only
    refine keeps_guard badStructure_sound fun _ => ?_
    exact keeps_bind (keeps_modify fun _ same => same) fun _ => keeps_pure _
  · exact keeps_pure _

theorem directives_sound {versioned : Bool} {fuel : Nat} :
    Sound failure (directives versioned fuel) := by
  induction fuel generalizing versioned with
  | zero => exact keeps_pure _
  | succ fuel ih =>
    unfold directives
    refine keeps_bind peek_sound fun next => ?_
    split
    · refine keeps_bind drop_sound fun _ => ?_
      exact keeps_bind addDirective_sound fun _ => ih
    · exact keeps_pure _

theorem addDefaultHandles_sound : Sound failure addDefaultHandles :=
  keeps_modify fun _ same => same

theorem explicitContent_sound {fuel : Nat} : Sound failure (explicitContent fuel) := by
  unfold explicitContent
  refine keeps_bind peek_sound fun next => ?_
  exact keeps_ite nothing_sound ((readers_sound fuel).node true false)

theorem skipEnds_sound {fuel : Nat} : Sound failure (skipEnds fuel) := by
  induction fuel with
  | zero => exact keeps_pure _
  | succ fuel ih =>
    unfold skipEnds
    exact keeps_bind accept_sound fun accepted => keeps_ite ih (keeps_pure _)

theorem document_sound {fuel : Nat} : Sound failure (document fuel) := by
  have ends (root : Option Nat) : Sound failure (do
      skipEnds fuel
      if (← peek).isSome then refuse .badStructure
      return root) := by
    refine keeps_bind skipEnds_sound fun _ => ?_
    refine keeps_bind peek_sound fun next => ?_
    exact keeps_guard badStructure_sound fun _ => keeps_pure _
  unfold document
  refine keeps_bind peek_sound fun next => keeps_ite ?_ (keeps_ite ?_ ?_)
  · exact keeps_bind (keeps_pure _) ends
  · refine keeps_bind directives_sound fun _ => ?_
    refine keeps_bind addDefaultHandles_sound fun _ => ?_
    refine keeps_bind expect_sound fun _ => ?_
    refine keeps_bind explicitContent_sound fun root => ?_
    exact keeps_bind (keeps_pure _) ends
  · refine keeps_bind addDefaultHandles_sound fun _ => ?_
    refine keeps_bind ((readers_sound fuel).node true false) fun root => ?_
    exact keeps_bind (keeps_pure _) ends

end Build

theorem tokens_failure {ts : Tokens} {e : Error} (failed : Graph.ofTokens ts = .error e) :
    e.isMalformed = true ∨ ts.failure = some e := by
  have sound : Build.Sound ts.failure (Build.document (4 * ts.tokens.length + 8)) :=
    Build.document_sound
  exact keeps_failure sound rfl failed

-- A graph comes to nothing because the text is malformed or because of an escape.
theorem graph_failure {cs : List Char} {e : Error} (failed : Graph.ofChars cs = .error e) :
    e.isMalformed = true ∨
      ((Tokens.ofChars cs).failure = some e ∧ ∃ n, codePoint n = .error e) := by
  unfold Graph.ofChars at failed
  split at failed
  · cases failed
    exact .inl rfl
  · rcases tokens_failure failed with malformed | scanned
    · exact .inl malformed
    · cases Scanner.run_failure scanned with
      | badToken => exact .inl rfl
      | escape unnamed => exact .inr ⟨scanned, _, unnamed⟩

end InlineProject.Yaml
