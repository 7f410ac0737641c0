import CardSort.Text

/-!
# Arguments of the command line

Options are given by a long name, `--name value` or `--name=value`, or by a letter, `-n value`,
`-nvalue` or `-n=value`; letters of switches may be joined. There are no positional arguments.

* `Options` are the options that were given.
* `Arguments.parse` reads a list of arguments into a `Request`, or refuses it.
-/

set_option autoImplicit false

namespace CardSort

/-- The options of the command line. -/
structure Options where
  /-- The file with the control statements. -/
  cards : Option String := none
  /-- Control statements given on the command line. -/
  control : Option String := none
  inputs : List String := []
  outputs : List String := []
  /-- The configuration file. -/
  config : Option String := none
  recordLength : Option Nat := none
  separator : Option String := none
  memoryLimit : Option Nat := none
  stable : Bool := false
  unstable : Bool := false
  header : Option Nat := none
  tempDir : Option String := none
  workers : Option Nat := none
  verbose : Bool := false
deriving DecidableEq, Repr

/-- What the command line asks for. -/
inductive Request where
  | run (options : Options)
  | showHelp
  | showVersion
deriving DecidableEq, Repr

namespace Arguments

/-- An option that takes a value. -/
inductive Valued where
  | cards
  | control
  | input
  | output
  | config
  | recordLength
  | separator
  | memoryLimit
  | header
  | tempDir
  | workers
deriving DecidableEq, Repr

/-- An option without a value. -/
inductive Switch where
  | stable
  | unstable
  | verbose
  | help
  | version
deriving DecidableEq, Repr

/-- An option of either kind. -/
inductive Known where
  | valued (option : Valued)
  | switch (option : Switch)
deriving DecidableEq, Repr

/-- The option with a long name. -/
def ofName? : String → Option Known
  | "cards" => some (.valued .cards)
  | "control" => some (.valued .control)
  | "input" => some (.valued .input)
  | "output" => some (.valued .output)
  | "config" => some (.valued .config)
  | "record-length" => some (.valued .recordLength)
  | "separator" => some (.valued .separator)
  | "memory-limit" => some (.valued .memoryLimit)
  | "header" => some (.valued .header)
  | "temp-dir" => some (.valued .tempDir)
  | "workers" => some (.valued .workers)
  | "stable" => some (.switch .stable)
  | "unstable" => some (.switch .unstable)
  | "verbose" => some (.switch .verbose)
  | "help" => some (.switch .help)
  | "version" => some (.switch .version)
  | _ => none

/-- The option with a letter. -/
def ofLetter? : Char → Option Known
  | 'c' => some (.valued .cards)
  | 'i' => some (.valued .input)
  | 'o' => some (.valued .output)
  | 'v' => some (.switch .verbose)
  | 'h' => some (.switch .help)
  | 'V' => some (.switch .version)
  | _ => none

/-! ## Setting options -/

/-- Sets an option that may be given once. -/
def setOnce {α : Type} (slot : Option α) (value : Option α) : Option (Option α) :=
  if slot.isSome then none else value.map some

/-- The path of a file or directory, which is not empty. -/
def path? (value : String) : Option String := if value.isEmpty then none else some value

/-- Sets an option with a value; `none` if the value is refused or the option was given before. -/
def set? (o : Options) (option : Valued) (value : String) : Option Options :=
  match option with
  | .cards => (setOnce o.cards (path? value)).map fun v => { o with cards := v }
  | .control => (setOnce o.control (some value)).map fun v => { o with control := v }
  | .input => (path? value).map fun p => { o with inputs := o.inputs ++ [p] }
  | .output => (path? value).map fun p => { o with outputs := o.outputs ++ [p] }
  | .config => (setOnce o.config (path? value)).map fun v => { o with config := v }
  | .recordLength =>
    (setOnce o.recordLength (Numeral.word64? value)).map fun v => { o with recordLength := v }
  | .separator => (setOnce o.separator (some value)).map fun v => { o with separator := v }
  | .memoryLimit =>
    (setOnce o.memoryLimit (Numeral.word64? value)).map fun v => { o with memoryLimit := v }
  | .header => (setOnce o.header (Numeral.word64? value)).map fun v => { o with header := v }
  | .tempDir => (setOnce o.tempDir (path? value)).map fun v => { o with tempDir := v }
  | .workers => (setOnce o.workers (Numeral.word64? value)).map fun v => { o with workers := v }

/-- What a switch does: it sets an option, or it asks for something other than a run. -/
def flip? (o : Options) (switch : Switch) : Option (Options ⊕ Request) :=
  match switch with
  | .stable => if o.stable then none else some (.inl { o with stable := true })
  | .unstable => if o.unstable then none else some (.inl { o with unstable := true })
  | .verbose => if o.verbose then none else some (.inl { o with verbose := true })
  | .help => some (.inr .showHelp)
  | .version => some (.inr .showVersion)

/-! ## Reading arguments -/

/-- One argument by its form. -/
inductive Argument where
  /-- A long option, with its value if one is attached. -/
  | long (name : String) (value : Option String)
  /-- Letters behind a dash. -/
  | letters (cs : List Char)
  /-- The mark after which only positional arguments follow. -/
  | endOfOptions
  /-- Anything else. -/
  | plain (text : String)
deriving DecidableEq, Repr

/-- The form of an argument. A dash alone is plain. -/
def Argument.of (arg : String) : Argument :=
  match arg.toList with
  | ['-', '-'] => .endOfOptions
  | '-' :: '-' :: cs =>
    match Text.cutAt '=' cs with
    | some (name, value) => .long (String.ofList name) (some (String.ofList value))
    | none => .long (String.ofList cs) none
  | '-' :: c :: cs => .letters (c :: cs)
  | _ => .plain arg

/-- What is known after some arguments: options, with one that waits for its value, or an answer
other than a run. -/
inductive State where
  | options (o : Options)
  | waiting (o : Options) (option : Valued)
  | answered (r : Request)
deriving DecidableEq, Repr

/-- The state after a switch. -/
def afterSwitch (o : Options) (s : Switch) : Option State :=
  (flip? o s).map fun
    | .inl o => .options o
    | .inr r => .answered r

/-- Takes letters. A letter of an option with a value takes the letters behind it as the value,
without a leading equals sign; without letters behind it, it waits for the next argument. -/
def takeLetters (o : Options) : List Char → Option State
  | [] => some (.options o)
  | c :: cs =>
    match ofLetter? c with
    | none => none
    | some (.valued option) =>
      match cs with
      | [] => some (.waiting o option)
      | '=' :: value => (set? o option (String.ofList value)).map .options
      | value => (set? o option (String.ofList value)).map .options
    | some (.switch s) =>
      match afterSwitch o s with
      | some (.options o) => takeLetters o cs
      | other => other

/-- Takes a long option with its attached value, if there is one. -/
def takeLong (o : Options) (name : String) (value : Option String) : Option State :=
  match ofName? name, value with
  | some (.valued option), some value => (set? o option value).map .options
  | some (.valued option), none => some (.waiting o option)
  | some (.switch s), none => afterSwitch o s
  | some (.switch _), some _ => none
  | none, _ => none

/-- Whether the options fit together: statements come from exactly one place, records have one
framing, and equal keys one treatment. -/
def fit (o : Options) : Bool :=
  o.cards.isSome != o.control.isSome &&
    ! (o.recordLength.isSome && o.separator.isSome) && ! (o.stable && o.unstable)

/-- Takes arguments up to the mark that ends the options, behind which nothing may follow. -/
def takeAll (state : State) : List String → Option State
  | [] => some state
  | arg :: args =>
    match state, Argument.of arg with
    | .answered r, _ => some (.answered r)
    | .waiting o option, .plain value =>
      (set? o option value).bind fun o => takeAll (.options o) args
    | .waiting _ _, _ => none
    | .options o, .long name value => (takeLong o name value).bind fun s => takeAll s args
    | .options o, .letters cs => (takeLetters o cs).bind fun s => takeAll s args
    | .options o, .endOfOptions => if args.isEmpty then some (.options o) else none
    | .options _, .plain _ => none

/-- Reads the arguments of a command line; `none` if they are refused. -/
def parse (args : List String) : Option Request :=
  match takeAll (.options {}) args with
  | some (.answered r) => some r
  | some (.options o) => if fit o then some (.run o) else none
  | _ => none

end Arguments

end CardSort
