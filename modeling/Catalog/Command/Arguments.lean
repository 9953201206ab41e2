import Catalog.Text.Ascii
import Catalog.Text.Search

/-! Lists of arguments. A command takes options and either operands or another command. Arguments are
read from the left, and the first one that does not fit, or asks for information, settles the whole.
An argument that starts with a dash is an option unless it follows the argument `--` or is a single
dash. -/

namespace Catalog.Command

open Catalog.Text

/-- What a value has to be. -/
inductive ValueKind where
  | text
  /-- A text that is not empty. -/
  | path
  /-- A natural number below 2^64. -/
  | count
  /-- A natural number below 2^32. -/
  | bound
  /-- An integer of 64 bits. -/
  | id
deriving DecidableEq, Repr

/-- A natural number below 2^32, with any sign before zero. -/
def word32? (s : List Char) : Option Nat :=
  (signed64? s).bind fun n => if 0 ≤ n ∧ n < 0x100000000 then some n.toNat else none

/-- The value is of the kind. -/
def ValueKind.admits (kind : ValueKind) (value : String) : Bool :=
  match kind with
  | text => true
  | path => !value.toList.isEmpty
  | count => (word64? value.toList).isSome
  | bound => (word32? value.toList).isSome
  | id => (signed64? value.toList).isSome

/-- How an option is used. -/
inductive Usage where
  /-- Asks for information about the program in place of a run. -/
  | question
  /-- Given at most once and without a value. -/
  | mark
  /-- Given at most once with a value. -/
  | single (kind : ValueKind)
  /-- Given any number of times with a value. -/
  | repeated (kind : ValueKind)
deriving DecidableEq, Repr

/-- An option: `--name` and perhaps a single letter. -/
structure OptionForm where
  name : String
  letter : Option Char
  usage : Usage
  required : Bool := false
deriving DecidableEq, Repr

/-- What a command takes. -/
inductive Grammar where
  /-- Options and exactly these operands. -/
  | operands (options : List OptionForm) (kinds : List ValueKind)
  /-- Options and one of these commands. -/
  | choice (options : List OptionForm) (commands : List (String × Grammar))

/-- The options of a command. -/
def Grammar.options : Grammar → List OptionForm
  | operands options _ => options
  | choice options _ => options

/-- What was given to one command: options with their values, and operands, in order. -/
structure Given where
  command : String
  options : List (String × String) := []
  operands : List String := []
deriving DecidableEq, Repr, Inhabited

namespace Given

/-- The option was given. -/
def has (given : Given) (name : String) : Bool := given.options.any fun o => o.1 == name

/-- The values that an option was given with. -/
def values (given : Given) (name : String) : List String :=
  (given.options.filter fun o => o.1 == name).map (·.2)

/-- The value that an option was given with. -/
def value? (given : Given) (name : String) : Option String := (given.values name).head?

/-- The option was given where it is required. -/
def satisfies (given : Given) (options : List OptionForm) : Bool :=
  options.all fun form => !form.required || given.has form.name

/-- With one more option, if its value fits and it may be given again. -/
def give? (given : Given) (form : OptionForm) (value : String) : Option Given :=
  let more := { given with options := given.options ++ [(form.name, value)] }
  match form.usage with
  | .question => none
  | .mark => if given.has form.name then none else some more
  | .single kind => if given.has form.name || !kind.admits value then none else some more
  | .repeated kind => if kind.admits value then some more else none

/-- With one more operand, if the command takes it. -/
def giveOperand? (given : Given) (grammar : Grammar) (value : String) : Option Given :=
  match grammar with
  | .choice _ _ => none
  | .operands _ kinds =>
    match kinds[given.operands.length]? with
    | some kind =>
      if kind.admits value then some { given with operands := given.operands ++ [value] } else none
    | none => none

end Given

/-- What a list of arguments amounts to. -/
inductive Reading where
  /-- What was given to each command on the way from the program to the one to run. -/
  | accepted (path : List Given)
  /-- The program is asked for information. -/
  | question
  | refused
deriving DecidableEq, Repr

/-- What becomes of an argument that holds options. -/
inductive Step where
  | taken (given : Given)
  /-- The value of the option is the next argument. -/
  | pending (given : Given) (form : OptionForm)
  | question
  | refused
deriving DecidableEq, Repr

/-- An option with its value in the same argument. -/
def Step.ofValue (given : Given) (form : OptionForm) (value : List Char) : Step :=
  match given.give? form (String.ofList value) with
  | some given => .taken given
  | none => .refused

/-- Reads what follows two dashes: a name, and perhaps a value after an equals sign. -/
def readName (forms : List OptionForm) (given : Given) (text : List Char) : Step :=
  let (name, value) := match cut? '=' text with
    | some (name, value) => (name, some value)
    | none => (text, none)
  match forms.find? fun form => form.name.toList == name with
  | none => .refused
  | some form =>
    match form.usage, value with
    | .question, none => .question
    | .question, some _ => .refused
    | .mark, none => .ofValue given form []
    | .mark, some _ => .refused
    | _, some value => .ofValue given form value
    | _, none => .pending given form

/-- Reads what follows one dash: letters of options. What stands after the letter of an option with a
value is the value, without an equals sign before it. -/
def readLetters (forms : List OptionForm) (given : Given) : List Char → Step
  | [] => .taken given
  | c :: rest =>
    match forms.find? fun form => form.letter == some c with
    | none => .refused
    | some form =>
      match form.usage with
      | .question => .question
      | .mark =>
        match given.give? form "" with
        | some given => readLetters forms given rest
        | none => .refused
      | _ =>
        match rest with
        | [] => .pending given form
        | '=' :: value => .ofValue given form value
        | value => .ofValue given form value

/-- The word that asks for information about the commands named after it. -/
def helpWord : String := "help"

/-- Names of commands, each of the one before. Where there are commands, the word for help is one that
has none. -/
def names (commands : List (String × Grammar)) : List String → Bool
  | [] => true
  | word :: rest =>
    if word == helpWord then !commands.isEmpty && rest.isEmpty
    else
      match commands.find? fun c => c.1 == word with
      | some (_, .choice _ commands) => names commands rest
      | some (_, .operands _ _) => rest.isEmpty
      | none => false

/-- The part of a reading that is not finished. -/
structure Progress where
  grammar : Grammar
  /-- What was given to the commands before. -/
  before : List Given
  given : Given
  /-- An option that waits for its value. -/
  pending : Option OptionForm := none
  /-- Every argument that follows is an operand. -/
  verbatim : Bool := false

namespace Progress

/-- The reading without further arguments. -/
def finish (progress : Progress) : Reading :=
  match progress.grammar with
  | .choice _ _ => .refused
  | .operands options kinds =>
    if progress.pending.isNone && progress.given.operands.length == kinds.length &&
        progress.given.satisfies options then
      .accepted (progress.before ++ [progress.given])
    else .refused

/-- The command that an argument names. -/
def command? (progress : Progress) (argument : String) : Option Grammar :=
  match progress.grammar with
  | .choice _ commands => (commands.find? fun c => c.1 == argument).map (·.2)
  | .operands _ _ => none

/-- The argument asks for information about commands. -/
def asksForHelp (progress : Progress) (argument : String) : Bool :=
  match progress.grammar with
  | .choice _ _ => argument == helpWord
  | .operands _ _ => false

/-- The argument and all after it name commands of the grammar. -/
def helps (progress : Progress) (rest : List String) : Bool :=
  match progress.grammar with
  | .choice _ commands => names commands rest
  | .operands _ _ => false

end Progress

/-- The argument starts with a dash and is more than that. -/
def isDashed (argument : List Char) : Bool :=
  match argument with
  | '-' :: _ :: _ => true
  | _ => false

/-- Reads a list of arguments. The options of `common` belong to every command. -/
def readFrom (common : List OptionForm) (progress : Progress) : List String → Reading
  | [] => progress.finish
  | argument :: rest =>
    let forms := progress.grammar.options ++ common
    let operand := fun (_ : Unit) => progress.given.giveOperand? progress.grammar argument
    if progress.verbatim then
      match operand () with
      | some given => readFrom common { progress with given } rest
      | none => .refused
    else
      match progress.pending with
      | some form =>
        if isDashed argument.toList then .refused
        else
          match progress.given.give? form argument with
          | some given => readFrom common { progress with given, pending := none } rest
          | none => .refused
      | none =>
        match progress.command? argument with
        | some grammar =>
          let before := progress.before ++ [progress.given]
          readFrom common { grammar, before, given := { command := argument } } rest
        | none =>
          if progress.asksForHelp argument then
            if progress.helps rest then .question else .refused
          else if argument == "--" then readFrom common { progress with verbatim := true } rest
          else
            let step := match argument.toList with
              | '-' :: '-' :: text => some (readName forms progress.given text)
              | '-' :: c :: text => some (readLetters forms progress.given (c :: text))
              | _ => none
            match step with
            | some (.taken given) => readFrom common { progress with given } rest
            | some (.pending given form) =>
              readFrom common { progress with given, pending := some form } rest
            | some .question => .question
            | some .refused => .refused
            | none =>
              match operand () with
              | some given => readFrom common { progress with given } rest
              | none => .refused

/-- Reads the arguments of a program. -/
def Grammar.read (grammar : Grammar) (common : List OptionForm) (arguments : List String) :
    Reading :=
  readFrom common { grammar, before := [], given := { command := "" } } arguments

end Catalog.Command
