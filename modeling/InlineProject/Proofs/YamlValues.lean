import InlineProject.Proofs.YamlGraph
import InlineProject.Yaml.Value
/-!
How the loading of values fails. Loading moves entries between mappings and makes texts of some keys,
but it leaves scalars alone; so what fails is malformed, or a scalar of the graph that does not keep
what its kind promises.
-/

namespace InlineProject.Yaml

/-! ### Scalars that keep their promise -/

-- No failure of this sort says that the text is malformed.
abbrev Sincere (e : Error) : Prop := e.isMalformed = false

namespace Datum

variable {α : Type}

theorem liftNumber_fails {r : Except NumberError α} : Fails Sincere (liftNumber r) := by
  cases r with
  | error e => exact fails_error rfl
  | ok x => exact fails_ok _

theorem splitSign_fails {t : Text} : Fails Sincere (splitSign t) := by
  unfold splitSign
  split
  · exact fails_error rfl
  · exact fails_ok _
  · exact fails_ok _
  · exact fails_ok _

theorem readInt_fails {t : Text} : Fails Sincere (readInt t) := by
  have ends (negative : Bool) (i : Int) :
      Fails Sincere (pure (if negative then -i else i) : Except Error Int) := fails_pure _
  unfold readInt
  refine fails_bind splitSign_fails fun ⟨negative, t⟩ => ?_
  dsimp only
  refine fails_ite ?_ (fails_ite ?_ (fails_ite ?_ (fails_ite ?_ (fails_ite ?_ (fails_ite ?_ ?_)))))
  · exact fails_bind (fails_pure _) (ends negative)
  · exact fails_bind liftNumber_fails (ends negative)
  · exact fails_bind liftNumber_fails (ends negative)
  · exact fails_bind (fails_throw rfl) (ends negative)
  · exact fails_bind liftNumber_fails (ends negative)
  · refine fails_bind liftNumber_fails fun parts => ?_
    exact fails_bind (fails_pure _) (ends negative)
  · exact fails_bind liftNumber_fails (ends negative)

theorem placeValue_fails {n : Nat} : Fails Sincere (placeValue n) := by
  unfold placeValue
  split
  · exact fails_error rfl
  · exact fails_ok _

theorem sumSixtieths_fails {parts : List Binary64} {total : Binary64} {place : Nat} :
    Fails Sincere (sumSixtieths total place parts) := by
  induction parts generalizing total place with
  | nil => exact fails_ok _
  | cons part rest ih =>
    unfold sumSixtieths
    exact fails_bind placeValue_fails fun _ => ih

theorem readReal_fails {t : Text} : Fails Sincere (readReal t) := by
  unfold readReal
  refine fails_bind splitSign_fails fun ⟨negative, t⟩ => ?_
  dsimp only
  refine fails_ite (fails_pure _) (fails_ite (fails_pure _) (fails_ite ?_ ?_))
  · refine fails_bind liftNumber_fails fun parts => ?_
    exact fails_bind sumSixtieths_fails fun x => fails_pure _
  · exact fails_bind liftNumber_fails fun x => fails_pure _

theorem readBool_fails {t : Text} : Fails Sincere (readBool t) := by
  unfold readBool
  split
  · exact fails_ok _
  · exact fails_error rfl

theorem fails_map_date {r : Except DateError α} {f : α → Datum} :
    Fails Sincere ((r.map f).mapError .date) := by
  cases r with
  | error e => exact fails_error rfl
  | ok x => exact fails_ok _

theorem readTimestamp_fails {t : Text} : Fails Sincere (readTimestamp t) := by
  unfold readTimestamp
  split
  · exact fails_map_date
  · exact fails_map_date
  · exact fails_error rfl

theorem fails_map {β : Type} {sort : Error → Prop} {r : Except Error α} {f : α → β}
    (first : Fails sort r) : Fails sort (r.map f) := by
  cases done : r with
  | error e => exact fails_error (first e done)
  | ok x => exact fails_ok _

theorem readBinary_malformed {t : Text} {e : Error} (failed : readBinary t = .error e) :
    e.isMalformed = true := by
  unfold readBinary at failed
  split at failed
  · split at failed
    · cases failed
    · cases failed; rfl
  · cases failed; rfl

-- Of the kinds of scalars only bytes have texts that count as malformed.
theorem read_sincere {kind : Kind} {t : Text} {e : Error}
    (failed : read? kind t = some (.error e)) (noBytes : kind ≠ .binary) : Sincere e := by
  have sincere {r : Except Error Datum} (fails : Fails Sincere r) (same : some r = some (.error e)) :
      Sincere e := fails e (Option.some.inj same)
  cases kind with
  | null => cases failed
  | bool => exact sincere (fails_map readBool_fails) failed
  | int => exact sincere (fails_map readInt_fails) failed
  | float => exact sincere (fails_map readReal_fails) failed
  | timestamp => exact sincere readTimestamp_fails failed
  | binary => exact absurd rfl noBytes
  | str => cases failed
  | _ => cases failed

end Datum

/-! ### Nodes while values are loaded -/

-- Loading leaves scalars alone, and a node of another kind than before is a text.
structure Derived (start nodes : Nodes) : Prop where
  scalar : ∀ id text, contentOf nodes id = some (.scalar text) ↔
    contentOf start id = some (.scalar text)
  kind : ∀ id, kindOf nodes id = kindOf start id ∨ kindOf nodes id = .str

def HoldsScalar (nodes : Nodes) (id : Nat) : Prop :=
  ∃ text, contentOf nodes id = some (.scalar text)

theorem Derived.refl (nodes : Nodes) : Derived nodes nodes :=
  ⟨fun _ _ => Iff.rfl, fun _ => .inl rfl⟩

theorem contentOf_modify {nodes : Nodes} {id other : Nat} {f : Node → Node} :
    contentOf (nodes.modify id f) other
      = if id = other then (nodes[other]?).map fun n => (f n).content
        else contentOf nodes other := by
  unfold contentOf
  rw [Array.getElem?_modify]
  by_cases same : id = other
  · rw [if_pos same, if_pos same]
    cases nodes[other]? <;> rfl
  · rw [if_neg same, if_neg same]

theorem kindOf_modify {nodes : Nodes} {id other : Nat} {f : Node → Node} :
    kindOf (nodes.modify id f) other
      = if id = other then ((nodes[other]?).map fun n => (f n).kind).getD .null
        else kindOf nodes other := by
  unfold kindOf
  rw [Array.getElem?_modify]
  by_cases same : id = other
  · rw [if_pos same, if_pos same]
    cases nodes[other]? <;> rfl
  · rw [if_neg same, if_neg same]

variable {start nodes : Nodes}

theorem setEntries_derived {id : Nat} {entries : List (Nat × Nat)} (derived : Derived start nodes)
    (noScalar : ¬HoldsScalar start id) : Derived start (setEntries id entries nodes) := by
  refine ⟨?_, ?_⟩
  · intro other text
    unfold setEntries
    rw [contentOf_modify]
    by_cases same : id = other
    · subst same
      rw [if_pos rfl]
      constructor
      · intro found
        cases present : nodes[id]? with
        | none => rw [present] at found; cases found
        | some n => rw [present] at found; cases found
      · intro found
        exact absurd ⟨text, found⟩ noScalar
    · rw [if_neg same]
      exact derived.scalar other text
  · intro other
    have same : kindOf (setEntries id entries nodes) other = kindOf nodes other := by
      unfold setEntries
      rw [kindOf_modify]
      split
      · unfold kindOf
        cases nodes[other]? <;> rfl
      · rfl
    rw [same]
    exact derived.kind other

theorem settleKey_derived {entry : Nat × Nat} (derived : Derived start nodes) :
    Derived start (settleKey nodes entry) := by
  unfold settleKey
  split
  · refine ⟨?_, ?_⟩
    · intro other text
      rw [← derived.scalar other text, contentOf_modify]
      split
      · unfold contentOf
        cases nodes[other]? <;> rfl
      · exact Iff.rfl
    · intro other
      rw [kindOf_modify]
      split
      · rename_i same
        cases present : nodes[other]? with
        | none =>
          have kept := derived.kind other
          unfold kindOf at kept
          rw [present] at kept
          exact kept
        | some n => exact .inr rfl
      · exact derived.kind other
  · exact derived

theorem settleKeys_derived {entries : List (Nat × Nat)} (derived : Derived start nodes) :
    Derived start (entries.foldl settleKey nodes) := by
  induction entries generalizing nodes with
  | nil => exact derived
  | cons entry rest ih => exact ih (settleKey_derived derived)

theorem noScalar_of_content {id : Nat} {content : Content} (derived : Derived start nodes)
    (here : contentOf nodes id = some content) (other : ∀ text, content ≠ .scalar text) :
    ¬HoldsScalar start id := by
  rintro ⟨text, found⟩
  rw [(derived.scalar id text).mpr found] at here
  exact other text (Option.some.inj here).symm

/-! ### Merging -/

-- A computation gives something good, or fails in one of some ways.
def Settles {α : Type} (good : α → Prop) (sort : Error → Prop) (r : Except Error α) : Prop :=
  match r with
  | .ok x => good x
  | .error e => sort e

theorem settles_bind {α β : Type} {good : α → Prop} {better : β → Prop} {sort : Error → Prop}
    {r : Except Error α} {f : α → Except Error β} (first : Settles good sort r)
    (later : ∀ x, good x → Settles better sort (f x)) : Settles better sort (r >>= f) := by
  cases r with
  | error e => exact first
  | ok x => exact later x first

abbrev Malformed (e : Error) : Prop := e.isMalformed = true

-- What is known of merging with some fuel.
structure MergingSound (start : Nodes) (fuel : Nat) : Prop where
  flatten : ∀ id nodes, Derived start nodes → ¬HoldsScalar start id →
    Settles (fun nodes => Derived start nodes) Malformed (flatten fuel id nodes)
  mergeAll : ∀ id merged nodes, Derived start nodes → ¬HoldsScalar start id →
    Settles (fun r => Derived start r.2) Malformed (mergeAll fuel id merged nodes)
  mergeItems : ∀ items nodes, Derived start nodes →
    Settles (fun r => Derived start r.2) Malformed (mergeItems fuel items nodes)

section Merging

variable {fuel : Nat} (merging : MergingSound start fuel)

include merging

theorem flatten_sound {id : Nat} (derived : Derived start nodes) (noScalar : ¬HoldsScalar start id) :
    Settles (fun nodes => Derived start nodes) Malformed (flatten (fuel + 1) id nodes) := by
  unfold flatten
  refine settles_bind (merging.mergeAll id [] nodes derived noScalar) fun ⟨merged, nodes⟩ kept => ?_
  exact setEntries_derived (settleKeys_derived kept) noScalar

theorem mergeAll_sound {id : Nat} {merged : List (Nat × Nat)} (derived : Derived start nodes)
    (noScalar : ¬HoldsScalar start id) :
    Settles (fun r => Derived start r.2) Malformed (mergeAll (fuel + 1) id merged nodes) := by
  unfold mergeAll
  split
  · exact derived
  · have kept (entries : List (Nat × Nat)) : Derived start (setEntries id entries nodes) :=
      setEntries_derived derived noScalar
    dsimp only
    split
    · rename_i entries here
      have inner := noScalar_of_content (kept _) here nofun
      refine settles_bind (merging.flatten _ _ (kept _) inner) fun nodes kept => ?_
      exact merging.mergeAll id _ nodes kept noScalar
    · refine settles_bind (merging.mergeItems _ _ (kept _)) fun ⟨parts, nodes⟩ kept => ?_
      exact merging.mergeAll id _ nodes kept noScalar
    · exact rfl

theorem mergeItems_sound {items : List Nat} (derived : Derived start nodes) :
    Settles (fun r => Derived start r.2) Malformed (mergeItems (fuel + 1) items nodes) := by
  cases items with
  | nil =>
    unfold mergeItems
    exact derived
  | cons item rest =>
    unfold mergeItems
    split
    · rename_i entries here
      have inner := noScalar_of_content derived here nofun
      refine settles_bind (merging.flatten item nodes derived inner) fun nodes kept => ?_
      dsimp only
      refine settles_bind (merging.mergeItems rest nodes kept) fun ⟨parts, nodes⟩ kept => ?_
      exact kept
    · exact rfl

end Merging

theorem merging_sound (start : Nodes) (fuel : Nat) : MergingSound start fuel := by
  induction fuel with
  | zero =>
    refine ⟨?_, ?_, ?_⟩
    · intro id nodes derived _
      unfold flatten
      exact derived
    · intro id merged nodes derived _
      unfold mergeAll
      exact derived
    · intro items nodes derived
      cases items with
      | nil =>
        unfold mergeItems
        exact derived
      | cons item rest =>
        unfold mergeItems
        exact derived
  | succ fuel ih =>
    exact ⟨fun _ _ derived noScalar => flatten_sound ih derived noScalar,
      fun _ _ _ derived noScalar => mergeAll_sound ih derived noScalar,
      fun _ _ derived => mergeItems_sound ih derived⟩

/-! ### Loading -/

-- A scalar of the graph that does not keep what a kind promises: its own kind, or that of a mapping
-- that gives it as its value. A timestamp has to be a scalar itself.
inductive BrokenPromise (nodes : Nodes) : Error → Prop where
  | unreadable {id holder : Nat} {text : Text} {e : Error}
      (held : contentOf nodes holder = some (.scalar text))
      (whose : holder = id ∨ ¬HoldsScalar nodes id) (noBytes : kindOf nodes id ≠ .binary)
      (failed : Datum.read? (kindOf nodes id) text = some (.error e)) : BrokenPromise nodes e
  | collection {id : Nat} (kind : kindOf nodes id = .timestamp)
      (noScalar : ¬HoldsScalar nodes id) : BrokenPromise nodes .timestampOfCollection

namespace Load

variable {α : Type}

abbrev Sound (start : Nodes) (m : Load α) : Prop :=
  Keeps (fun l : Loader => Derived start l.nodes)
    (fun e => e.isMalformed = true ∨ BrokenPromise start e) m

theorem refuse_sound {e : Error} (malformed : e.isMalformed = true) :
    Sound start (refuse e : Load α) := keeps_refuse (.inl malformed)

theorem setValue_sound {id : Nat} {v : Value} : Sound start (setValue id v) :=
  keeps_modify fun _ derived => derived

theorem startWith_sound {id : Nat} {v : Value} : Sound start (startWith id v) := by
  unfold startWith
  refine keeps_bind setValue_sound fun _ => ?_
  exact keeps_bind (keeps_modify fun _ derived => derived) fun _ => keeps_pure _

-- The text of a node is that of a scalar: of the node itself, or of one that a mapping names.
theorem textOf_parts {fuel id : Nat} {text : Text} (found : textOf nodes fuel id = .ok text) :
    ∃ holder, contentOf nodes holder = some (.scalar text) ∧
      (holder = id ∨ ¬HoldsScalar nodes id) := by
  induction fuel generalizing id with
  | zero => cases found
  | succ fuel ih =>
    unfold textOf at found
    split at found
    · rename_i here
      cases found
      exact ⟨id, here, .inl rfl⟩
    · rename_i entries here
      split at found
      · obtain ⟨holder, held, _⟩ := ih found
        refine ⟨holder, held, .inr ?_⟩
        rintro ⟨other, there⟩
        rw [here] at there
        cases there
      · cases found
    · cases found

theorem textOf_malformed {fuel id : Nat} {e : Error} (failed : textOf nodes fuel id = .error e) :
    e.isMalformed = true := by
  induction fuel generalizing id with
  | zero => cases failed; rfl
  | succ fuel ih =>
    unfold textOf at failed
    split at failed
    · cases failed
    · split at failed
      · exact ih failed
      · cases failed; rfl
    · cases failed; rfl

theorem isScalar_exact {id : Nat} : isScalar nodes id = true ↔ HoldsScalar nodes id := by
  unfold isScalar HoldsScalar
  split
  · rename_i text here
    exact ⟨fun _ => ⟨text, here⟩, fun _ => rfl⟩
  · rename_i other
    refine ⟨nofun, ?_⟩
    rintro ⟨text, here⟩
    exact absurd here (other text)

theorem holdsScalar_derived {id : Nat} (derived : Derived start nodes) :
    HoldsScalar nodes id ↔ HoldsScalar start id :=
  ⟨fun ⟨text, here⟩ => ⟨text, (derived.scalar id text).mp here⟩,
    fun ⟨text, here⟩ => ⟨text, (derived.scalar id text).mpr here⟩⟩

-- A kind that is none of a text is the one that the node began with.
theorem kind_of_derived {id : Nat} (derived : Derived start nodes)
    (noText : kindOf nodes id ≠ .str) : kindOf nodes id = kindOf start id :=
  (derived.kind id).resolve_right noText

theorem read_broken {id : Nat} {text : Text} {e : Error} {fuel : Nat}
    (derived : Derived start nodes) (found : textOf nodes fuel id = .ok text)
    (failed : Datum.read? (kindOf nodes id) text = some (.error e)) :
    e.isMalformed = true ∨ BrokenPromise start e := by
  obtain ⟨holder, held, whose⟩ := textOf_parts found
  have noText : kindOf nodes id ≠ .str := by
    intro text
    rw [text] at failed
    cases failed
  by_cases bytes : kindOf nodes id = .binary
  · left
    rw [bytes] at failed
    exact Datum.readBinary_malformed (Option.some.inj failed)
  · right
    rw [kind_of_derived derived noText] at failed bytes
    rw [holdsScalar_derived derived] at whose
    exact .unreadable ((derived.scalar holder text).mp held) whose bytes failed

theorem value_sound {id : Nat} : Sound start (value id) := by
  unfold value
  refine keeps_get_bind fun l derived => ?_
  split
  · exact keeps_pure _
  · split
    · exact startWith_sound
    · exact startWith_sound
    · exact startWith_sound
    · exact startWith_sound
    · exact startWith_sound
    · exact refuse_sound rfl
    · exact refuse_sound rfl
    · exact refuse_sound rfl
    · split
      · rename_i failed
        exact refuse_sound (textOf_malformed failed)
      · rename_i text found
        split
        · rename_i unfit
          rw [Bool.and_eq_true, decide_eq_true_eq, Bool.not_eq_true', ← Bool.not_eq_true,
            isScalar_exact, holdsScalar_derived derived] at unfit
          have noText : kindOf l.nodes id ≠ .str := by
            rw [unfit.1]
            nofun
          have kind := unfit.1
          rw [kind_of_derived derived noText] at kind
          exact keeps_refuse (.inr (.collection kind unfit.2))
        · split
          · exact keeps_bind setValue_sound fun _ => keeps_pure _
          · rename_i failed
            exact keeps_refuse (read_broken derived found failed)
          · exact refuse_sound rfl

theorem values_sound {ids : List Nat} : Sound start (values ids) := by
  induction ids with
  | nil => exact keeps_pure _
  | cons id rest ih => exact keeps_bind value_sound fun _ => ih

theorem key_sound {id : Nat} : Sound start (key id) := by
  unfold key
  refine keeps_bind value_sound fun v => ?_
  split
  · exact keeps_pure _
  · exact refuse_sound rfl

theorem entries_sound {pairs : List (Nat × Nat)} {done : List (Datum × Nat)} :
    Sound start (entries pairs done) := by
  induction pairs generalizing done with
  | nil => exact keeps_pure _
  | cons pair rest ih =>
    obtain ⟨k, v⟩ := pair
    unfold entries
    refine keeps_bind key_sound fun k => ?_
    exact keeps_bind value_sound fun _ => ih

theorem flatEntries_sound {id : Nat} : Sound start (flatEntries id) := by
  unfold flatEntries
  refine keeps_get_bind fun l derived => ?_
  split
  · rename_i here
    have noScalar := noScalar_of_content derived here nofun
    have settled := (merging_sound start (mergeFuel l.nodes)).flatten id l.nodes derived noScalar
    split
    · rename_i failed
      rw [failed] at settled
      exact refuse_sound settled
    · rename_i merged
      rw [merged] at settled
      exact keeps_bind (keeps_set settled) fun _ => entries_sound
  · exact refuse_sound rfl

theorem pairs_sound {items : List Nat} : Sound start (pairs items) := by
  induction items with
  | nil => exact keeps_pure _
  | cons item rest ih =>
    unfold pairs
    refine keeps_get_bind fun l derived => ?_
    split
    · refine keeps_bind value_sound fun _ => ?_
      refine keeps_bind value_sound fun _ => ?_
      exact keeps_bind ih fun _ => keeps_pure _
    · exact refuse_sound rfl

theorem fill_sound {id : Nat} : Sound start (fill id) := by
  unfold fill
  refine keeps_get_bind fun l derived => ?_
  split
  · split
    · exact keeps_bind values_sound fun _ => setValue_sound
    · exact refuse_sound rfl
  · exact keeps_bind flatEntries_sound fun _ => setValue_sound
  · exact keeps_bind flatEntries_sound fun _ => setValue_sound
  · split
    · exact keeps_bind pairs_sound fun _ => setValue_sound
    · exact refuse_sound rfl

theorem fillAll_sound {fuel : Nat} : Sound start (fillAll fuel) := by
  induction fuel with
  | zero => exact keeps_pure _
  | succ fuel ih =>
    unfold fillAll
    refine keeps_get_bind fun l derived => ?_
    split
    · exact keeps_pure _
    · refine keeps_bind (keeps_modify fun _ derived => derived) fun _ => ?_
      exact keeps_bind fill_sound fun _ => ih

end Load

theorem graph_values_failure {g : Graph} {e : Error} (failed : Loaded.ofGraph g = .error e) :
    e.isMalformed = true ∨ BrokenPromise g.nodes e := by
  unfold Loaded.ofGraph at failed
  split at failed
  · cases failed
  · rename_i root _
    have sound : Load.Sound g.nodes (do
        let _ ← Load.value root
        Load.fillAll (g.nodes.size + 1)) :=
      keeps_bind Load.value_sound fun _ => Load.fillAll_sound
    exact keeps_failure sound (Derived.refl g.nodes) failed

/-! ### A whole document -/

-- Why a text that is a document of the language is not loaded all the same: an escape that names no
-- code point, where the text is needed, or a scalar that does not keep its promise.
inductive Unloadable (cs : List Char) : Error → Prop where
  | escape {n : Nat} {e : Error} (scanned : (Tokens.ofChars cs).failure = some e)
      (unnamed : codePoint n = .error e) : Unloadable cs e
  | scalar {g : Graph} {e : Error} (read : Graph.ofChars cs = .ok g)
      (broken : BrokenPromise g.nodes e) : Unloadable cs e

theorem codePoint_sincere {n : Nat} : Fails Sincere (codePoint n) := by
  unfold codePoint
  split
  · exact fails_ok _
  · split
    · exact fails_error rfl
    · exact fails_error rfl

theorem unloadable_sincere {cs : List Char} {e : Error} (unloadable : Unloadable cs e) :
    e.isMalformed = false := by
  cases unloadable with
  | escape _ unnamed => exact codePoint_sincere e unnamed
  | scalar _ broken =>
    cases broken with
    | unreadable _ _ noBytes failed => exact Datum.read_sincere failed noBytes
    | collection => rfl

theorem load_failure {cs : List Char} {e : Error} (failed : load cs = .error e) :
    e.isMalformed = true ∨ Unloadable cs e := by
  unfold load at failed
  cases read : Graph.ofChars cs with
  | error other =>
    rw [read] at failed
    cases failed
    exact (graph_failure read).imp id fun ⟨scanned, _, unnamed⟩ => .escape scanned unnamed
  | ok g =>
    rw [read] at failed
    exact (graph_values_failure failed).imp id fun broken => .scalar read broken

end InlineProject.Yaml
