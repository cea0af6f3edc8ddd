import NormalGrammar.CompileFault

/-!
# Events and reports

An event is worth a line in the log while a grammar is loaded and used. A report is what a piece
of work leaves behind: the texts it printed, the events it logged, and its result. Work that fails
keeps what it printed and logged before.
-/

namespace NormalGrammar

/-! ## Events -/

/-- How important an event is. -/
inductive Event.Level where
  | debug
  | warn
deriving DecidableEq

/-- The level's name. -/
def Event.Level.name : Event.Level → String
  | .debug => "DEBUG"
  | .warn => "WARN"

/-- Something to log. -/
inductive Event where
  | compiled (rules : Nat)
  | validated (rules : Nat)
  | undefinedStart (x : Char)
  | buildingTable (input : List Char)
  | unproduced (c : Char)
  | rejected (stage : Stage)
deriving DecidableEq

namespace Event

/-- Grammars and inputs that cannot work are warned about, all else is for debugging. -/
def level : Event → Level
  | .undefinedStart _ | .unproduced _ => .warn
  | .compiled _ | .validated _ | .buildingTable _ | .rejected _ => .debug

/-- The part of the program that the line names. -/
def target : Event → String
  | .compiled _ => "cyk::parser"
  | .validated _ => "cyk::parser::verifier"
  | .undefinedStart _ => "cyk::grammar"
  | .buildingTable _ | .unproduced _ => "cyk::recognizer"
  | .rejected _ => "cyk"

/-- The event in words. -/
def message : Event → String
  | .compiled n => "Compiled " ++ toString n ++ " rule(s)"
  | .validated n => "Validated " ++ toString n ++ " rule(s)"
  | .undefinedStart x =>
    "Start symbol `" ++ x.toString ++ "` has no rules, nothing will be accepted"
  | .buildingTable w =>
    let n := toString w.length
    "Building " ++ n ++ "x" ++ n ++ " table for `" ++ String.ofList w ++ "`"
  | .unproduced c => "No rule produces `" ++ c.toString ++ "`"
  | .rejected s => "Grammar rejected at the " ++ s.name ++ " stage"

end Event

/-! ## Reports -/

/-- Printed texts and logged events in order, and a value or the reason there is none. -/
structure Report (ε α : Type) where
  out : List String
  log : List Event
  result : Except ε α

namespace Report

variable {ε δ α β : Type}

/-- Silent work with a value. -/
def pure (a : α) : Report ε α := ⟨[], [], .ok a⟩

/-- Silent failure. -/
def fail (e : ε) : Report ε α := ⟨[], [], .error e⟩

/-- Silent work with a result. -/
def ofExcept (r : Except ε α) : Report ε α := ⟨[], [], r⟩

/-- Goes on with the value, if there is one. -/
def bind (r : Report ε α) (f : α → Report ε β) : Report ε β :=
  match r.result with
  | .error e => ⟨r.out, r.log, .error e⟩
  | .ok a =>
    let s := f a
    ⟨r.out ++ s.out, r.log ++ s.log, s.result⟩

instance : Monad (Report ε) where
  pure := Report.pure
  bind := Report.bind

/-- Prints text. -/
def print (s : String) : Report ε Unit := ⟨[s], [], .ok ()⟩

/-- Prints text and ends the line. -/
def printLine (s : String) : Report ε Unit := print (s ++ "\n")

/-- Logs an event. -/
def note (e : Event) : Report ε Unit := ⟨[], [e], .ok ()⟩

/-- Logs further events if the work has failed. -/
def noteFailure (f : ε → List Event) (r : Report ε α) : Report ε α :=
  match r.result with
  | .error e => { r with log := r.log ++ f e }
  | .ok _ => r

/-- Reports a failure as another one. -/
def mapError (f : ε → δ) (r : Report ε α) : Report δ α := ⟨r.out, r.log, r.result.mapError f⟩

/-! ## What is left behind -/

theorem bind_eq (r : Report ε α) (f : α → Report ε β) : (r >>= f) = r.bind f := rfl

@[simp] theorem pure_eq (a : α) : (Pure.pure a : Report ε α) = ⟨[], [], .ok a⟩ := rfl

theorem bind_of_ok {r : Report ε α} {a : α} (h : r.result = .ok a) (f : α → Report ε β) :
    (r >>= f) = ⟨r.out ++ (f a).out, r.log ++ (f a).log, (f a).result⟩ := by
  rw [bind_eq, bind, h]

theorem bind_of_error {r : Report ε α} {e : ε} (h : r.result = .error e) (f : α → Report ε β) :
    (r >>= f) = ⟨r.out, r.log, .error e⟩ := by
  rw [bind_eq, bind, h]

instance : LawfulMonad (Report ε) :=
  LawfulMonad.mk' _
    (by
      rintro α ⟨out, log, e | a⟩
      · rfl
      · show Report.mk (out ++ []) (log ++ []) (.ok a) = _
        rw [List.append_nil, List.append_nil])
    (by
      intro α β a f
      rfl)
    (by
      rintro α β γ ⟨out, log, e | a⟩ f g
      · rfl
      · simp only [bind_eq, bind]
        rcases f a with ⟨out', log', e | b⟩
        · rfl
        · simp only [List.append_assoc])

end Report

end NormalGrammar
