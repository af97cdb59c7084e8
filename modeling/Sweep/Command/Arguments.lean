/-!
# Reading arguments

A *usage* says how a command is called. Either the command has operands, or it has commands of its
own and the arguments name one of them; in both cases it has switches. A switch is written `--name`
or `-n`, and switches of one letter can be written together. A switch that takes a value has it in
the next argument, or attached: `--name=value`, `-nvalue` or `-n=value`. After `--` every argument
is an operand.

Arguments are read from left to right, and the first thing that is wrong decides. The one exception
is a value in an argument of its own: it is not looked at before the next switch or operand of the
same command, or the end.

## Main results

* `length_operands_takeOperand_le` — a command is never given more operands than it has.
-/

namespace Sweep.Arguments

/-- Which texts a value can be. -/
inductive Domain where
  /-- Every text. -/
  | any
  /-- Every text but the empty one. -/
  | nonempty
  /-- One of some words. -/
  | oneOf (words : List String)
deriving DecidableEq, Repr

/-- Whether a text can be the value. -/
def Domain.admits : Domain → String → Bool
  | any, _ => true
  | nonempty, text => text ≠ ""
  | oneOf words, text => words.contains text

/-- The words that a value must be one of, if there are any. -/
def Domain.words : Domain → List String
  | oneOf words => words
  | _ => []

/-- What can be asked about a command. -/
inductive Question where
  | usage
  | version
deriving DecidableEq, Repr

/-- What a switch is for. -/
inductive Role where
  /-- It is given or not. -/
  | flag
  /-- It takes a value, which messages call by a name. -/
  | option (valueName : String) (domain : Domain)
  /-- It asks for a text about the command, and then nothing else is done. -/
  | question (question : Question)
deriving DecidableEq, Repr

structure Switch where
  name : String
  letter : Option Char
  /-- What it is for. -/
  role : Role
deriving DecidableEq, Repr

/-- How messages name a switch. -/
def Switch.label (switch : Switch) : String :=
  match switch.role with
  | .option valueName _ => "--" ++ switch.name ++ " <" ++ valueName ++ ">"
  | _ => "--" ++ switch.name

structure Operand where
  name : String
  /-- Which texts it can be. -/
  domain : Domain
  /-- Whether it must be there. -/
  required : Bool
deriving DecidableEq, Repr

def Operand.label (operand : Operand) : String :=
  if operand.required then "<" ++ operand.name ++ ">" else "[" ++ operand.name ++ "]"

/-- How a command is called. -/
inductive Usage where
  /-- With operands. -/
  | leaf (switches : List Switch) (operands : List Operand)
  /-- With one of its own commands. -/
  | branch (switches : List Switch) (commands : List (String × Usage))

def Usage.switches : Usage → List Switch
  | leaf switches _ => switches
  | branch switches _ => switches

/-- The command of a command with a given name. -/
def Usage.command? (name : String) : Usage → Option Usage
  | leaf .. => none
  | branch _ commands => commands.lookup name

/-- Whether a command has commands of its own. -/
def Usage.isBranch : Usage → Bool
  | leaf .. => false
  | branch .. => true

/-- The word that asks for a text about a command of a command. -/
def helpWord : String := "help"

inductive Misuse where
  /-- A switch or an operand lacks its value. -/
  | missingValue (label : String) (words : List String)
  /-- A value is none of the words it could be. -/
  | invalidValue (value label : String) (words : List String)
  | unexpectedValue (value label : String)
  | repeated (label : String)
  | conflict (label other : String)
  | unexpectedArgument (text : String)
  | missingOperand (label : String)
  | unknownCommand (text : String)
  | missingCommand
deriving DecidableEq, Repr

/-- The words that a value can be, on a line of their own. -/
def wordsLine (words : List String) : String :=
  if words.isEmpty then "" else "\n  [possible values: " ++ ", ".intercalate words ++ "]"

def Misuse.message : Misuse → String
  | missingValue label words =>
    "a value is required for '" ++ label ++ "' but none was supplied" ++ wordsLine words
  | invalidValue value label words =>
    "invalid value '" ++ value ++ "' for '" ++ label ++ "'" ++ wordsLine words
  | unexpectedValue value label =>
    "unexpected value '" ++ value ++ "' for '" ++ label ++ "' found; no more were accepted"
  | repeated label => "the argument '" ++ label ++ "' cannot be used multiple times"
  | conflict label other =>
    "the argument '" ++ label ++ "' cannot be used with '" ++ other ++ "'"
  | unexpectedArgument text => "unexpected argument '" ++ text ++ "' found"
  | missingOperand label =>
    "the following required arguments were not provided:\n  " ++ label
  | unknownCommand text => "unrecognized subcommand '" ++ text ++ "'"
  | missingCommand => "a subcommand is required but one was not provided"

/-- Why arguments call no command. -/
inductive Refusal where
  | asked (question : Question)
  | misused (misuse : Misuse)
deriving DecidableEq, Repr

/-- A value that was checked. -/
def Domain.check (domain : Domain) (label value : String) : Except Refusal String :=
  if domain.admits value then .ok value
  else if value = "" then .error (.misused (.missingValue label domain.words))
  else .error (.misused (.invalidValue value label domain.words))

/-- What a command was given. -/
structure Given where
  /-- The switches, with their values; a flag has an empty one. -/
  switches : List (String × String)
  /-- The operands in order. -/
  operands : List String
deriving DecidableEq, Repr

structure Reading where
  /-- The names of the commands, outermost first. -/
  path : List String
  /-- What was given to the program and to each of the commands. -/
  levels : List Given
deriving DecidableEq, Repr

/-! ## Words -/

/-- An argument by its form. -/
inductive Word where
  /-- A switch by its name, with a value if one is attached. -/
  | long (name : String) (value : Option String)
  /-- Switches by their letters. -/
  | short (letters : List Char)
  /-- The mark before operands. -/
  | stop
  /-- Anything else. -/
  | plain
deriving DecidableEq, Repr

def Word.ofText (text : String) : Word :=
  match text.toList with
  | ['-', '-'] => stop
  | '-' :: '-' :: rest =>
    let name := rest.takeWhile (· ≠ '=')
    match rest.drop name.length with
    | [] => long (String.ofList name) none
    | _ :: value => long (String.ofList name) (some (String.ofList value))
  | '-' :: letter :: rest => short (letter :: rest)
  | _ => plain

/-! ## Reading one command -/

/-- The switch whose value is in an argument of its own. -/
inductive Pending where
  | nothing
  /-- Its value has not come yet. -/
  | wanting (switch : Switch) (domain : Domain)
  /-- Its value has come and has not been looked at. -/
  | holding (switch : Switch) (domain : Domain) (value : String)
deriving DecidableEq, Repr

/-- Whether the next argument is to be a value. -/
def Pending.isWanting : Pending → Bool
  | wanting .. => true
  | _ => false

/-- How far the arguments of one command have been read. -/
structure Level where
  given : Given := ⟨[], []⟩
  /-- The switch whose value is in an argument of its own. -/
  pending : Pending := .nothing
  /-- Whether all that follows are operands. -/
  literal : Bool := false
deriving DecidableEq, Repr

namespace Level

/-- Gives a switch its value. Each switch can be given once. -/
def give (level : Level) (switch : Switch) (domain : Domain) (value : String) :
    Except Refusal Level := do
  if (level.given.switches.lookup switch.name).isSome then
    .error (.misused (.repeated switch.label))
  else
    let value ← domain.check switch.label value
    return { level with given.switches := level.given.switches ++ [(switch.name, value)] }

/-- Looks at the value that came in an argument of its own. -/
def settle (level : Level) : Except Refusal Level :=
  match level.pending with
  | .nothing => .ok level
  | .wanting switch domain => .error (.misused (.missingValue switch.label domain.words))
  | .holding switch domain value =>
    { level with pending := .nothing }.give switch domain value

def takeSwitch (level : Level) (switch : Switch) (attached : Option String) :
    Except Refusal Level := do
  match switch.role, attached with
  | .flag, none => (← level.settle).give switch .any ""
  | .question question, none =>
    let _ ← level.settle
    .error (.asked question)
  | .option _ domain, none => return { ← level.settle with pending := .wanting switch domain }
  | .option _ domain, some value => (← level.settle).give switch domain value
  | _, some value => .error (.misused (.unexpectedValue value switch.label))

/-- What is attached to the letter of a switch. -/
def attachedTo : List Char → Option String
  | [] => none
  | '=' :: value => some (String.ofList value)
  | value => some (String.ofList value)

/-- Reads switches by their letters. -/
def takeLetters (switches : List Switch) (level : Level) : List Char → Except Refusal Level
  | [] => .ok level
  | letter :: rest =>
    match switches.find? (·.letter = some letter) with
    | none => .error (.misused (.unexpectedArgument (String.ofList ['-', letter])))
    | some switch =>
      match switch.role with
      | .option .. => level.takeSwitch switch (attachedTo rest)
      | _ => do takeLetters switches (← level.takeSwitch switch none) rest

def takeOperand (level : Level) (usage : Usage) (text : String) : Except Refusal Level := do
  let level ← level.settle
  match usage with
  | .branch .. => .error (.misused (.unknownCommand text))
  | .leaf _ operands =>
    match operands[level.given.operands.length]? with
    | none => .error (.misused (.unexpectedArgument text))
    | some operand =>
      let text ← operand.domain.check operand.label text
      return { level with given.operands := level.given.operands ++ [text] }

/-- A command is never given more operands than it has. -/
theorem length_operands_takeOperand_le {level taken : Level} {switches : List Switch}
    {operands : List Operand} {text : String}
    (h : level.takeOperand (.leaf switches operands) text = .ok taken) :
    taken.given.operands.length ≤ operands.length := by
  unfold takeOperand at h
  cases hsettle : level.settle with
  | error refusal => simp [hsettle, bind, Except.bind] at h
  | ok level =>
    simp only [hsettle, bind, Except.bind] at h
    split at h
    · simp at h
    · rename_i operand hoperand
      cases hcheck : operand.domain.check operand.label text with
      | error refusal => simp [hcheck] at h
      | ok text =>
        simp only [hcheck, pure, Except.pure, Except.ok.injEq] at h
        subst h
        have := (List.getElem?_eq_some_iff.1 hoperand).1
        simp only [List.length_append, List.length_singleton]
        omega

/-- Reads an argument that names no command. -/
def take (level : Level) (usage : Usage) (argument : String) : Except Refusal Level :=
  if level.literal then level.takeOperand usage argument
  else
    match Word.ofText argument with
    | .stop => .ok { level with literal := true }
    | .long name value =>
      match usage.switches.find? (·.name = name) with
      | none => .error (.misused (.unexpectedArgument ("--" ++ name)))
      | some switch => level.takeSwitch switch value
    | .short letters => level.takeLetters usage.switches letters
    | .plain =>
      match level.pending with
      | .wanting switch domain =>
        .ok { level with pending := .holding switch domain argument }
      | _ => level.takeOperand usage argument

/-- Ends a command: it must name a command of its own or have all operands that it needs. -/
def finish (level : Level) (usage : Usage) : Except Refusal Given := do
  let level ← level.settle
  match usage with
  | .branch .. => .error (.misused .missingCommand)
  | .leaf _ operands =>
    match (operands.drop level.given.operands.length).find? (·.required) with
    | some operand => .error (.misused (.missingOperand operand.label))
    | none => return level.given

end Level

/-! ## Reading all -/

/-- Reads the arguments after the word that asks for a text: the names of commands, each a command
of the one before. The last of them can be that word again. -/
def readHelp (usage : Usage) : List String → Refusal
  | [] => .asked .usage
  | name :: rest =>
    match usage.command? name with
    | some inner => readHelp inner rest
    | none =>
      if usage.isBranch && name = helpWord && rest.isEmpty then .asked .usage
      else .misused (.unknownCommand name)

/-- Whether an argument can name a command, and is not a value or an operand by its place. -/
def Level.isNaming (level : Level) : Bool :=
  !level.literal && !level.pending.isWanting

/-- Whether an argument asks for a text about a command of a command. -/
def Level.asksHelp (level : Level) (usage : Usage) (argument : String) : Bool :=
  level.isNaming && usage.isBranch && argument = helpWord

/-- The command that an argument names. -/
def Level.inner? (level : Level) (usage : Usage) (argument : String) : Option Usage :=
  if level.isNaming then usage.command? argument else none

/-- Reads the arguments of a command from some point on. -/
def readFrom (usage : Usage) (level : Level) : List String → Except Refusal Reading
  | [] => (level.finish usage).map fun given => ⟨[], [given]⟩
  | argument :: rest =>
    if level.asksHelp usage argument then .error (readHelp usage rest)
    else
      match level.inner? usage argument with
      | none => do readFrom usage (← level.take usage argument) rest
      | some inner => do
        let reading ← readFrom inner {} rest
        let level ← level.settle
        return ⟨argument :: reading.path, level.given :: reading.levels⟩

/-- Reads the arguments of a program. -/
def read (usage : Usage) (arguments : List String) : Except Refusal Reading :=
  readFrom usage {} arguments

end Sweep.Arguments
