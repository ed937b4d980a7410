import InlineProject.Proofs.ActionRun
import InlineProject.Proofs.VersionControl
/-!
What is asked of the version control program, and in which order. A plan says what is asked next, given the
answers so far; a conversation goes by it, as far as it goes.
-/

namespace InlineProject.Git

variable {σ α β : Type}

-- A call, and what was replied to it.
structure Exchange where
  call : Call
  reply : Reply

-- Calls, each chosen by the answers to those before it, and what they come to in the end.
inductive Plan (α : Type) where
  | done (value : α)
  | ask (call : Call) (next : String → Plan α)

namespace Plan

def bind : Plan α → (α → Plan β) → Plan β
  | done x, f => f x
  | ask call next, f => ask call fun text => (next text).bind f

-- Calls in a row, whatever is answered to them.
def row : List Call → Plan Unit
  | [] => done ()
  | call :: rest => ask call fun _ => row rest

-- A conversation by a plan. It may be left before any call, no call follows one that got no answer, and it has
-- a value only where nothing is left to be asked.
inductive Run : Plan α → List Exchange → Option α → Prop where
  | ended {x : α} : Run (done x) [] (some x)
  | left {call : Call} {next : String → Plan α} : Run (ask call next) [] none
  | refused {call : Call} {next : String → Plan α} {reply : Reply}
      (unanswered : ∀ text, reply ≠ .output text) : Run (ask call next) [⟨call, reply⟩] none
  | answered {call : Call} {next : String → Plan α} {text : String} {talk : List Exchange}
      {r : Option α} (rest : Run (next text) talk r) :
      Run (ask call next) (⟨call, .output text⟩ :: talk) r

-- The calls of a plan from the first to the last, for some answers.
inductive Word : Plan α → List Call → Prop where
  | ended {x : α} : Word (done x) []
  | asked {call : Call} {next : String → Plan α} {text : String} {word : List Call}
      (rest : Word (next text) word) : Word (ask call next) (call :: word)

-- All that may be called, whatever is answered.
def All (allowed : Call → Prop) : Plan α → Prop
  | done _ => True
  | ask call next => allowed call ∧ ∀ text, (next text).All allowed

variable {p : Plan α} {f : α → Plan β} {talk more : List Exchange} {r : Option β}

theorem run_nil : ∃ r, p.Run [] r := by
  cases p with
  | done x => exact ⟨some x, .ended⟩
  | ask call next => exact ⟨none, .left⟩

theorem Run.bind_none (run : p.Run talk none) : (p.bind f).Run talk none := by
  generalize same : (none : Option α) = r at run
  induction run with
  | ended => cases same
  | left => exact .left
  | refused unanswered => exact .refused unanswered
  | answered _ ih => exact .answered (ih same)

theorem Run.append {x : α} (run : p.Run talk (some x)) (rest : (f x).Run more r) :
    (p.bind f).Run (talk ++ more) r := by
  generalize same : some x = value at run
  induction run with
  | ended =>
    cases same
    exact rest
  | left => cases same
  | refused => cases same
  | answered _ ih => exact .answered (ih same)

theorem exists_word (p : Plan α) : ∃ word, p.Word word := by
  induction p with
  | done x => exact ⟨[], .ended⟩
  | ask call next ih =>
    obtain ⟨word, rest⟩ := ih ""
    exact ⟨call :: word, .asked rest⟩

-- However far a conversation goes, what is called is the start of a word.
theorem Run.word {r : Option α} (run : p.Run talk r) :
    ∃ word, p.Word word ∧ talk.map (·.call) <+: word := by
  induction run with
  | ended => exact ⟨[], .ended, List.prefix_rfl⟩
  | @left call next =>
    obtain ⟨word, whole⟩ := exists_word (ask call next)
    exact ⟨word, whole, List.nil_prefix⟩
  | @refused call next =>
    obtain ⟨word, rest⟩ := exists_word (next "")
    exact ⟨call :: word, .asked rest, word, rfl⟩
  | answered _ ih =>
    obtain ⟨word, rest, leads⟩ := ih
    exact ⟨_ :: word, .asked rest, List.cons_prefix_cons.mpr ⟨rfl, leads⟩⟩

theorem Run.all {allowed : Call → Prop} {r : Option α} (run : p.Run talk r) (all : p.All allowed) :
    ∀ x ∈ talk, allowed x.call := by
  induction run with
  | ended => exact nofun
  | left => exact nofun
  | refused =>
    intro x member
    rw [List.mem_singleton.mp member]
    exact all.1
  | answered _ ih =>
    intro x member
    rcases List.mem_cons.mp member with rfl | later
    · exact all.1
    · exact ih (all.2 _) x later

theorem bind_assoc {γ : Type} {g : β → Plan γ} : (p.bind f).bind g = p.bind fun x => (f x).bind g := by
  induction p with
  | done x => rfl
  | ask call next ih =>
    simp only [bind]
    exact congrArg (ask call) (funext ih)

end Plan

/-! ### What a run says -/

variable {runner : Runner σ} {w middle w' : World σ} {talk more : List Exchange}

-- What was said between two worlds. Every reply is that of the program as it stands at the call.
inductive Talk (runner : Runner σ) : World σ → List Exchange → World σ → Prop where
  | silent {w w' : World σ} (git : w'.git = w.git) (calls : w'.calls = w.calls) : Talk runner w [] w'
  | asked {w middle w' : World σ} {call : Call} {reply : Reply} {g : σ} {d : Disk}
      {talk : List Exchange} (git : middle.git = w.git) (calls : middle.calls = w.calls)
      (replies : runner call middle.git middle.disk = (reply, g, d))
      (rest : Talk runner { middle with git := g, disk := d, calls := call :: middle.calls } talk w') :
      Talk runner w (⟨call, reply⟩ :: talk) w'

theorem Talk.append (first : Talk runner w talk middle) (second : Talk runner middle more w') :
    Talk runner w (talk ++ more) w' := by
  induction first with
  | silent git calls =>
    cases second with
    | silent git' calls' => exact .silent (git'.trans git) (calls'.trans calls)
    | asked git' calls' replies rest => exact .asked (git'.trans git) (calls'.trans calls) replies rest
  | asked git calls replies _ ih => exact .asked git calls replies (ih second)

theorem Talk.calls (talked : Talk runner w talk w') :
    w'.calls = (talk.map (·.call)).reverse ++ w.calls := by
  induction talked with
  | silent _ calls => exact calls
  | asked _ calls _ _ ih =>
    rw [ih, List.map_cons, List.reverse_cons, List.append_assoc, calls]
    rfl

-- An action that calls nothing.
structure Mute (runner : Runner σ) (w : World σ) (a : Action σ α) : Prop where
  git : (a.run runner w).2.git = w.git
  calls : (a.run runner w).2.calls = w.calls

theorem Mute.silent {a : Action σ α} (mute : Mute runner w a) : Talk runner w [] (a.run runner w).2 :=
  .silent mute.git mute.calls

-- An action that goes by a plan: it gives what the plan comes to, and where it fails the plan is left.
def Follows (runner : Runner σ) (w : World σ) (a : Action σ α) (plan : Plan α) : Prop :=
  ∃ talk, Talk runner w talk (a.run runner w).2 ∧ plan.Run talk (a.run runner w).1.toOption

-- An action in two phases. The second begins only when the first is done and something holds in between.
def Phases (runner : Runner σ) (w : World σ) (a : Action σ α) (read : α → Option β)
    (opening : Plan Unit) (between : World σ → Prop) (closing : Plan β) : Prop :=
  ∃ front middle back reached, Talk runner w front middle ∧ Talk runner middle back (a.run runner w).2 ∧
    opening.Run front reached ∧
    (back = [] ∧ (a.run runner w).1.toOption.bind read = none ∨
      reached = some () ∧ between middle ∧ closing.Run back ((a.run runner w).1.toOption.bind read))

open InlineProject.Action

/-! ### Actions without a call -/

namespace Mute

variable {a : Action σ α} {f : α → Action σ β}

theorem value {x : α} : Mute runner w (pure x : Action σ α) := ⟨rfl, rfl⟩

theorem failure {e : InlineProject.Failure} : Mute runner w (fail e : Action σ α) := ⟨rfl, rfl⟩

theorem bind (first : Mute runner w a)
    (rest : ∀ x middle, a.run runner w = (.ok x, middle) → Mute runner middle (f x)) :
    Mute runner w (a >>= f) := by
  have begun := first
  cases ran : a.run runner w with
  | mk result middle =>
    have git := begun.git
    have calls := begun.calls
    rw [ran] at git calls
    cases result with
    | error e =>
      refine ⟨?_, ?_⟩
      · rw [bind_error ran]
        exact git
      · rw [bind_error ran]
        exact calls
    | ok x =>
      have later := rest x middle ran
      refine ⟨?_, ?_⟩
      · rw [bind_ok ran]
        exact later.git.trans git
      · rw [bind_ok ran]
        exact later.calls.trans calls

theorem now {f : World σ → Action σ β} (rest : Mute runner w (f w)) : Mute runner w (get >>= f) := by
  refine ⟨?_, ?_⟩
  · rw [bind_ok run_get]
    exact rest.git
  · rw [bind_ok run_get]
    exact rest.calls

theorem modified {f : World σ → World σ} (git : (f w).git = w.git) (calls : (f w).calls = w.calls) :
    Mute runner w (modify f) := ⟨git, calls⟩

theorem noting {level : Level} {part message : String} :
    Mute runner w (note level part message) := ⟨hear_git, hear_calls⟩

theorem noted {level : Level} {part message : String} {f : Unit → Action σ β}
    (rest : ∀ middle, Mute runner middle (f ())) :
    Mute runner w (note level part message >>= f) := noting.bind fun _ middle _ => rest middle

theorem onDisk {a : DiskAction α} : Mute runner w (Action.onDisk a) := by
  refine ⟨?_, ?_⟩
  · rw [run_onDisk]
    rcases a.run.run w.disk with ⟨_ | _, _⟩ <;> rfl
  · rw [run_onDisk]
    rcases a.run.run w.disk with ⟨_ | _, _⟩ <;> rfl

end Mute

/-! ### Actions by a plan -/

namespace Follows

variable {a : Action σ α} {f : α → Action σ β} {p : Plan α} {q : α → Plan β}

theorem value {x : α} : Follows runner w (pure x : Action σ α) (.done x) :=
  ⟨[], .silent rfl rfl, .ended⟩

theorem failure {e : InlineProject.Failure} (unfinished : p.Run [] none) :
    Follows runner w (fail e : Action σ α) p :=
  ⟨[], .silent rfl rfl, unfinished⟩

theorem bind (first : Follows runner w a p)
    (rest : ∀ x middle, a.run runner w = (.ok x, middle) → Follows runner middle (f x) (q x)) :
    Follows runner w (a >>= f) (p.bind q) := by
  obtain ⟨talk, talked, run⟩ := first
  cases ran : a.run runner w with
  | mk result middle =>
    rw [ran] at talked run
    unfold Follows
    cases result with
    | error e =>
      rw [bind_error ran]
      exact ⟨talk, talked, run.bind_none⟩
    | ok x =>
      obtain ⟨more, later, ended⟩ := rest x middle ran
      rw [bind_ok ran]
      exact ⟨talk ++ more, talked.append later, run.append ended⟩

-- Where nothing is called the plan stands where it stood.
theorem mute {plan : Plan β} (still : Mute runner w a) (unfinished : plan.Run [] none)
    (rest : ∀ x middle, a.run runner w = (.ok x, middle) → Follows runner middle (f x) plan) :
    Follows runner w (a >>= f) plan := by
  have quiet := still.silent
  cases ran : a.run runner w with
  | mk result middle =>
    rw [ran] at quiet
    unfold Follows
    cases result with
    | error e =>
      rw [bind_error ran]
      exact ⟨[], quiet, unfinished⟩
    | ok x =>
      obtain ⟨talk, later, ended⟩ := rest x middle ran
      rw [bind_ok ran]
      exact ⟨talk, quiet.append later, ended⟩

theorem noted {level : Level} {part message : String} {f : Unit → Action σ β} {plan : Plan β}
    (rest : ∀ middle, Follows runner middle (f ()) plan) :
    Follows runner w (note level part message >>= f) plan := by
  obtain ⟨talk, later, ended⟩ := rest (hear ⟨level, part, message⟩ w)
  have still : Mute runner w (note level part message) := .noting
  have quiet : Talk runner w [] (hear ⟨level, part, message⟩ w) := still.silent
  unfold Follows
  rw [bind_ok (run_note level part message)]
  exact ⟨talk, quiet.append later, ended⟩

theorem callGit {call : Call} : Follows runner w (Action.callGit call) (.ask call .done) := by
  unfold Follows
  rw [run_callGit]
  cases replies : runner call w.git w.disk with
  | mk reply after =>
    obtain ⟨g, d⟩ := after
    refine ⟨[⟨call, reply⟩], .asked rfl rfl replies (.silent rfl rfl), ?_⟩
    cases reply with
    | output text => exact .answered .ended
    | failed status complaint => exact .refused nofun
    | unavailable e => exact .refused nofun
    | unreadable e => exact .refused nofun

theorem of_same {a' : Action σ α} (same : a.run runner w = a'.run runner w) (follows : Follows runner w a' p) :
    Follows runner w a p := by
  unfold Follows at follows ⊢
  rwa [same]

end Follows

/-! ### Actions in two phases -/

namespace Phases

variable {a : Action σ α} {γ : Type} {f : α → Action σ β} {read : β → Option γ} {opening : Plan Unit}
  {between : World σ → Prop} {closing : Plan γ}

theorem bind {p : Plan α} {q : α → Plan Unit} (first : Follows runner w a p)
    (rest : ∀ x middle, a.run runner w = (.ok x, middle) →
      Phases runner middle (f x) read (q x) between closing) :
    Phases runner w (a >>= f) read (p.bind q) between closing := by
  obtain ⟨talk, talked, run⟩ := first
  cases ran : a.run runner w with
  | mk result middle =>
    rw [ran] at talked run
    unfold Phases
    cases result with
    | error e =>
      rw [bind_error ran]
      exact ⟨talk, middle, [], none, talked, .silent rfl rfl, run.bind_none, .inl ⟨rfl, rfl⟩⟩
    | ok x =>
      obtain ⟨front, halfway, back, reached, begun, ended, early, late⟩ := rest x middle ran
      rw [bind_ok ran]
      exact ⟨talk ++ front, halfway, back, reached, talked.append begun, ended, run.append early, late⟩

-- After an action of which only the calls count for the plan.
theorem after {p q : Plan Unit} {g : Unit → α}
    (first : Follows runner w a (p.bind fun x => .done (g x)))
    (rest : ∀ x middle, a.run runner w = (.ok x, middle) →
      Phases runner middle (f x) read q between closing) :
    Phases runner w (a >>= f) read (p.bind fun _ => q) between closing := by
  have whole : Phases runner w (a >>= f) read ((p.bind fun x => .done (g x)).bind fun _ => q) between
      closing := bind first rest
  rwa [Plan.bind_assoc] at whole

theorem mute (still : Mute runner w a)
    (rest : ∀ x middle, a.run runner w = (.ok x, middle) →
      Phases runner middle (f x) read opening between closing) :
    Phases runner w (a >>= f) read opening between closing := by
  have quiet := still.silent
  cases ran : a.run runner w with
  | mk result middle =>
    rw [ran] at quiet
    unfold Phases
    cases result with
    | error e =>
      obtain ⟨reached, nothing⟩ : ∃ r, opening.Run [] r := Plan.run_nil
      rw [bind_error ran]
      exact ⟨[], middle, [], reached, quiet, .silent rfl rfl, nothing, .inl ⟨rfl, rfl⟩⟩
    | ok x =>
      obtain ⟨front, halfway, back, reached, begun, ended, early, late⟩ := rest x middle ran
      rw [bind_ok ran]
      exact ⟨front, halfway, back, reached, quiet.append begun, ended, early, late⟩

-- The first phase is over, and the second does not begin.
theorem stopped {read : α → Option γ} {x : α} (nothing : read x = none) :
    Phases runner w (pure x : Action σ α) read opening between closing := by
  obtain ⟨reached, silent⟩ : ∃ r, opening.Run [] r := Plan.run_nil
  exact ⟨[], w, [], reached, .silent rfl rfl, .silent rfl rfl, silent, .inl ⟨rfl, nothing⟩⟩

theorem closed {a : Action σ β} {p : Plan β} (holds : between w) (follows : Follows runner w a p)
    (plans : ∀ talk r, p.Run talk r → closing.Run talk (r.bind read)) :
    Phases runner w a read (.done ()) between closing := by
  obtain ⟨talk, talked, run⟩ := follows
  exact ⟨[], w, talk, some (), .silent rfl rfl, talked, .ended, .inr ⟨rfl, holds, plans _ _ run⟩⟩

-- A failure that is caught, with nothing called and nothing given.
theorem tryCatch {read : α → Option γ} {handler : InlineProject.Failure → Action σ α}
    (tried : Phases runner w a read opening between closing)
    (still : ∀ e middle, Mute runner middle (handler e))
    (nothing : ∀ e middle, ((handler e).run runner middle).1.toOption.bind read = none) :
    Phases runner w (MonadExcept.tryCatch a handler) read opening between closing := by
  obtain ⟨front, halfway, back, reached, begun, ended, early, late⟩ := tried
  unfold Phases
  rw [run_tryCatch]
  cases ran : a.run runner w with
  | mk result middle =>
    rw [ran] at ended late
    cases result with
    | ok x => exact ⟨front, halfway, back, reached, begun, ended, early, late⟩
    | error e =>
      refine ⟨front, halfway, back, reached, begun, ?_, early, ?_⟩
      · have last := ended.append (still e middle).silent
        rwa [List.append_nil] at last
      · dsimp only
        rw [nothing e middle]
        exact late

end Phases
end InlineProject.Git
