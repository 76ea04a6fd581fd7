/-
# BlockFlow.CommandLine.Arguments -- the grammar of the command line

Arguments are read from left to right, and the first that does not fit ends the
reading (`Stop.misuse`), as does a request for help or the version.

* An argument that begins with two dashes names an option, exactly; what follows an
  `=` in it is the option's value.  Otherwise the value is the next argument, which
  must not look like an option itself; a single dash does not.
* An argument that begins with one dash is a row of one-letter switches.
* Behind an argument of just two dashes all arguments are plain.
* An option or switch may be given once, only the switch for verbosity counts.  Counted
  behind the subcommand it replaces what was counted before it.

`Settings` describes the options of a subcommand, and `readArguments` reads them into
a draft.
-/
import BlockFlow.Ring.Counting

namespace BlockFlow.CommandLine

set_option autoImplicit false

/-- Why there is no command to carry out. -/
inductive Stop where
  | help
  | version
  | misuse
deriving DecidableEq

/-! ## Numerals -/

/-- The number written with decimal digits, at least one of them. -/
def decimal? (text : List Char) : Option Nat :=
  if text ≠ [] ∧ text.all Char.isDigit then some (Nat.ofDigitChars 10 text 0) else none

/-- A number below `bound`, perhaps after a plus sign. -/
def natural? (bound : Nat) (text : List Char) : Option Nat := do
  let n ← decimal? (match text with
    | '+' :: rest => rest
    | _ => text)
  if n < bound then some n else none

/-- A number below `bound` that may have a sign; with a minus it can only be zero. -/
def signed? (bound : Nat) : List Char → Option Nat
  | '-' :: rest => (decimal? rest).filter (· = 0)
  | text => natural? bound text

/-! ## Options -/

/-- How an option is put into a draft; `none` says that it does not fit. -/
inductive Setting (δ : Type) where
  | switch (set : δ → Option δ)
  | valued (set : String → δ → Option δ)

/-- What a subcommand takes. -/
structure Settings (δ : Type) where
  /-- The options by name. -/
  options : List (String × Setting δ)
  /-- A plain argument. -/
  plain : String → δ → Option δ

/-- The name of an option and the value given with it. -/
def splitOption (body : List Char) : List Char × Option String :=
  match body.span (· ≠ '=') with
  | (name, _ :: value) => (name, some (String.ofList value))
  | (name, []) => (name, none)

/-- Whether an argument is an option rather than a value. -/
def looksLikeOption (arg : String) : Bool :=
  match arg.toList with
  | '-' :: _ :: _ => true
  | _ => false

/-- The verbosity after a row of one-letter switches. -/
def readSwitches (versioned : Bool) : (verbosity : Nat) → List Char → Except Stop Nat
  | verbosity, [] => .ok verbosity
  | verbosity, c :: rest =>
    if c = 'v' then readSwitches versioned (verbosity + 1) rest
    else if c = 'h' then .error .help
    else if c = 'V' ∧ versioned then .error .version
    else .error .misuse

variable {δ : Type}

/-- A draft, if it could be made. -/
def fit (draft : Option δ) : Except Stop δ :=
  match draft with
  | some draft => .ok draft
  | none => .error .misuse

/-- What an option does to a draft and a verbosity; `needs` is an option that still wants
its value. -/
inductive Effect (δ : Type) where
  | set (draft : δ) (verbosity : Nat)
  | needs (set : String → δ → Option δ)

/-- Apply the option written as `body`, without its dashes. -/
def applyOption (settings : Settings δ) (draft : δ) (verbosity : Nat) (body : List Char) :
    Except Stop (Effect δ) :=
  let (name, value) := splitOption body
  if name = "verbose".toList then
    if value.isNone then .ok (.set draft (verbosity + 1)) else .error .misuse
  else if name = "help".toList then
    .error (if value.isNone then .help else .misuse)
  else
    match settings.options.find? (·.1.toList = name), value with
    | some (_, .switch set), none => do return .set (← fit (set draft)) verbosity
    | some (_, .valued set), some value => do return .set (← fit (set value draft)) verbosity
    | some (_, .valued set), none => .ok (.needs set)
    | _, _ => .error .misuse

/-- Plain arguments. -/
def readPlain (settings : Settings δ) (draft : δ) (args : List String) : Except Stop δ :=
  args.foldlM (fun draft arg => fit (settings.plain arg draft)) draft

/-- The arguments of a subcommand, with the verbosity they ask for. -/
def readArguments (settings : Settings δ) (draft : δ) (verbosity : Nat) :
    List String → Except Stop (δ × Nat)
  | [] => .ok (draft, verbosity)
  | arg :: rest =>
    match arg.toList with
    | ['-', '-'] => do return (← readPlain settings draft rest, verbosity)
    | '-' :: '-' :: body => do
      match ← applyOption settings draft verbosity body with
      | .set draft verbosity => readArguments settings draft verbosity rest
      | .needs set =>
        match rest with
        | value :: rest =>
          if looksLikeOption value then throw .misuse
          else readArguments settings (← fit (set value draft)) verbosity rest
        | [] => throw .misuse
    | '-' :: c :: row => do
      readArguments settings draft (← readSwitches false verbosity (c :: row)) rest
    | _ => do readArguments settings (← fit (settings.plain arg draft)) verbosity rest

/-! ## Commands -/

/-- What to run over a ring program. -/
structure RingOptions where
  nodes : Nat
  procedureNodes : Option Nat
  /-- The switches of the mode, in addition to those of the configuration. -/
  mode : Mode
  tracksCallSites : Bool
  counting : Ring.Counting
  /-- The path of the configuration. -/
  config : Option String
  /-- Report as JSON. -/
  json : Bool
deriving DecidableEq

inductive Command where
  | ring (options : RingOptions)
  /-- Show what a mask of mode bits means. -/
  | flags (bits : UInt32) (json : Bool)
deriving DecidableEq

structure Invocation where
  verbosity : Nat
  command : Command
deriving DecidableEq

namespace RingOptions

/-- The options given so far. -/
structure Draft where
  nodes : Option Nat := none
  procedureNodes : Option Nat := none
  interprocedural : Bool := false
  scansNodes : Bool := false
  noCache : Bool := false
  counting : Option Ring.Counting := none
  config : Option String := none
  json : Bool := false

/-- A switch that is `on` in a draft already cannot be given again. -/
def once (isOn : Draft → Bool) (turnOn : Draft → Draft) : Setting Draft :=
  .switch fun draft => if isOn draft then none else some (turnOn draft)

/-- An option that has a value in a draft already cannot be given again. -/
def unset {α : Type} (get : Draft → Option α) (set : String → Draft → Option Draft) :
    Setting Draft :=
  .valued fun text draft => if (get draft).isSome then none else set text draft

def settings : Settings Draft where
  options :=
    [("nodes", unset (·.nodes) fun text draft => do
        return { draft with nodes := some (← natural? (Nat.pow 2 64) text.toList) }),
     ("subgraph-nodes", unset (·.procedureNodes) fun text draft => do
        return { draft with procedureNodes := some (← natural? (Nat.pow 2 64) text.toList) }),
     ("interprocedural", once (·.interprocedural) ({ · with interprocedural := true })),
     ("no-callsites", once (·.scansNodes) ({ · with scansNodes := true })),
     ("no-cache", once (·.noCache) ({ · with noCache := true })),
     ("transfer", unset (·.counting) fun text draft => do
        return { draft with counting := some (← Ring.Counting.ofText? text) }),
     ("config", unset (·.config) fun text draft =>
        if text.isEmpty then none else some { draft with config := some text }),
     ("json", once (·.json) ({ · with json := true }))]
  plain := fun _ _ => none

/-- A ring of ten nodes that each change once, unless something else is asked for. -/
def ofDraft (draft : Draft) : RingOptions where
  nodes := draft.nodes.getD 10
  procedureNodes := draft.procedureNodes
  mode := ⟨draft.interprocedural, draft.scansNodes⟩
  tracksCallSites := !draft.noCache
  counting := draft.counting.getD .oneChange
  config := draft.config
  json := draft.json

end RingOptions

/-- The mask and the format given so far. -/
structure FlagsDraft where
  bits : Option Nat := none
  json : Option Bool := none

def flagsSettings : Settings FlagsDraft where
  options :=
    [("format", .valued fun text draft =>
        if draft.json.isSome then none
        else if text = "text" then some { draft with json := some false }
        else if text = "json" then some { draft with json := some true }
        else none)]
  plain := fun text draft =>
    if draft.bits.isSome then none
    else do return { draft with bits := some (← signed? (Nat.pow 2 32) text.toList) }

/-- The command named by a subcommand, and its own verbosity; 0 asks for nothing. -/
def readSubcommand (name : String) (args : List String) : Except Stop (Command × Nat) :=
  if name = "ring" then do
    let (draft, verbosity) ← readArguments RingOptions.settings {} 0 args
    return (.ring (.ofDraft draft), verbosity)
  else if name = "flags" then do
    let (draft, verbosity) ← readArguments flagsSettings {} 0 args
    match draft.bits with
    | some bits => return (.flags (.ofNat bits) (draft.json.getD false), verbosity)
    | none => throw .misuse
  else if name = "help" then
    .error (if args ∈ [[], ["ring"], ["flags"], ["help"]] then .help else .misuse)
  else .error .misuse

/-- The command line, given the verbosity counted so far. -/
def readCommand (verbosity : Nat) : List String → Except Stop Invocation
  | [] => .error .misuse
  | arg :: rest =>
    if arg = "--verbose" then readCommand (verbosity + 1) rest
    else if arg = "--version" then .error .version
    else if arg = "--help" then .error .help
    else
      match arg.toList with
      | '-' :: '-' :: _ => .error .misuse
      | '-' :: c :: row => do readCommand (← readSwitches true verbosity (c :: row)) rest
      | _ => do
        let (command, own) ← readSubcommand arg rest
        return { verbosity := if own = 0 then verbosity else own, command }

/-- The invocation that a command line asks for. -/
def Invocation.ofArguments (args : List String) : Except Stop Invocation := readCommand 0 args

end BlockFlow.CommandLine
