import CurlyScript.Finding
import CurlyScript.Layout.Style

/-
  Arguments: what the words after the name of the command ask for.

  The words are read from left to right.  A word that is awaited as the value of an option may not
  begin with a dash, unless it is a lone one; after `--` every word is taken as it is.  Nothing but
  `--allow` may be given twice.  A usage error wins over everything that follows it, and so do
  `--version` and `--help`.  The word `help` may be followed by the name of the command that help is
  wanted for.
-/

namespace CurlyScript

/-- What the command is to do. -/
inductive Invocation where
  /-- To list the tokens of a file. -/
  | tokens (file : String)
  /-- To dump the tree of a file. -/
  | tree (file : String)
  /-- To list the scopes and symbols of a file. -/
  | scopes (file : String)
  /-- To lay out the scripts at a path, or only to say (`check`) or show (`diff`) what would
      change. -/
  | format (path : String) (check diff : Bool) (style : Style)
  | lint (file : String) (policy : Policy) (json : Bool)
  | generate (file : String)
  /-- To print the name and the version. -/
  | version
  /-- To say how the command is used. -/
  | help
  /-- Nothing was asked for. -/
  | nothing

namespace Arguments

/-! ## Words -/

/-- What a single word is before `--`. -/
inductive Word where
  /-- The mark after which no word is an option. -/
  | ended
  /-- A long option, perhaps with a value after an equals sign. -/
  | long (name : String) (value : Option String)
  /-- Short options, given by one letter each. -/
  | short (letters : List Char)
  /-- Anything else. -/
  | plain (s : String)

/-- Reads a word. -/
def Word.ofString (s : String) : Word :=
  match s.toList with
  | ['-', '-'] => ended
  | '-' :: '-' :: cs =>
    let name := String.ofList (cs.takeWhile (· ≠ '='))
    match cs.dropWhile (· ≠ '=') with
    | _ :: value => long name (some (String.ofList value))
    | [] => long name none
  | '-' :: c :: cs => short (c :: cs)
  | _ => plain s

/-! ## Settings -/

/-- Everything that words can set. -/
structure Settings where
  /-- The word that is no option. -/
  operand : Option String
  /-- The options given, each with its value, last one first. -/
  options : List (String × String)

namespace Settings

/-- Nothing is set. -/
def empty : Settings := ⟨none, []⟩

/-- Whether an option was given. -/
def has (s : Settings) (name : String) : Bool := s.options.any (·.1 == name)

/-- The value of an option. -/
def value? (s : Settings) (name : String) : Option String := s.options.lookup name

/-- All values of an option. -/
def values (s : Settings) (name : String) : List String :=
  (s.options.filter (·.1 == name)).map (·.2)

end Settings

/-- How an option is used. -/
inductive Usage where
  /-- It has no value. -/
  | flag
  /-- It has a value of a certain form, and perhaps may be given again. -/
  | value (fits : String → Bool) (again : Bool)

/-- The options of a command. -/
abbrev Options := List (String × Usage)

/-- Whether a value can be a path. -/
def isPath (s : String) : Bool := s != ""

/-- The number that a text denotes, a plus sign before it being allowed. -/
def ofDecimal? (s : String) : Option Nat :=
  let ds := match s.toList with
    | '+' :: ds => ds
    | ds => ds
  if ds.isEmpty || !ds.all Char.isDigit then none
  else
    let n := ds.foldl (fun n c => 10 * n + (c.toNat - '0'.toNat)) 0
    if n < UInt64.size then some n else none

/-- The options of the command itself. -/
def mainOptions : Options :=
  [("lex", .value isPath false), ("parse", .value isPath false), ("resolve", .value isPath false)]

/-- The options of `fmt`. -/
def formatOptions : Options :=
  [("check", .flag), ("diff", .flag), ("indent", .value (fun s => (ofDecimal? s).isSome) false),
   ("compact", .flag), ("tight-operators", .flag), ("tight-commas", .flag)]

/-- The options of `lint`. -/
def lintOptions : Options :=
  [("json", .flag), ("allow", .value (fun s => (Rule.ofName? s).isSome) true)]

/-! ## Reading -/

/-- Takes a word that is no option. -/
def takeOperand (s : Settings) (word : String) : Option Settings :=
  if s.operand.isNone && isPath word then some { s with operand := some word } else none

/-- Takes an option. -/
def takeOption (s : Settings) (name value : String) (fits again : Bool) : Option Settings :=
  if fits && (again || !s.has name) then some { s with options := (name, value) :: s.options }
  else none

/-- Takes the words after `--`. -/
def takeOperands (s : Settings) : List String → Option Settings
  | [] => some s
  | w :: ws => (takeOperand s w).bind (takeOperands · ws)

/-- Where the reading of the words of one command ends. -/
inductive Stop where
  /-- All words were read. -/
  | done (s : Settings)
  /-- The name of another command was met, and these words follow it. -/
  | command (s : Settings) (name : String) (rest : List String)
  /-- The version was asked for. -/
  | version
  /-- Help was asked for. -/
  | help

/-- Whether a word can be the value of an option that stands before it. -/
def isValue (word : String) : Bool :=
  match Word.ofString word with
  | .plain _ => true
  | _ => false

/-- Reads the words after `help`: at most the name of a command to be helped with. -/
def readHelp (commands : List String) : List String → Option Stop
  | [] => some .help
  | [name] => if name = "help" || commands.contains name then some .help else none
  | _ => none

/-- Reads a cluster of short options, of which the first alone counts. -/
def readShort (commands : List String) (letters : List Char) : Option Stop :=
  match letters with
  | 'h' :: _ => some .help
  | 'V' :: _ => if commands.isEmpty then none else some .version
  | _ => none

/-- Reads the words of a command.  `commands` are the names that lead to another command; only
    the command that has them knows `help` and `--version`. -/
def read (options : Options) (commands : List String) (s : Settings) :
    List String → Option Stop
  | [] => some (.done s)
  | w :: ws =>
    match Word.ofString w with
    | .ended => (takeOperands s ws).map .done
    | .plain word =>
      if commands.contains word then some (.command s word ws)
      else if word = "help" && !commands.isEmpty then readHelp commands ws
      else (takeOperand s word).bind (read options commands · ws)
    | .short letters => readShort commands letters
    | .long name value =>
      if name = "help" && value.isNone then some .help
      else if name = "version" && value.isNone && !commands.isEmpty then some .version
      else match options.lookup name, value with
        | none, _ => none
        | some .flag, none =>
          (takeOption s name "" true false).bind (read options commands · ws)
        | some .flag, some _ => none
        | some (.value fits again), some v =>
          (takeOption s name v (fits v) again).bind (read options commands · ws)
        | some (.value fits again), none =>
          match ws with
          | v :: ws =>
            if isValue v then
              (takeOption s name v (fits v) again).bind (read options commands · ws)
            else none
          | [] => none

/-- What `fmt` is to do. -/
def formatInvocation (s : Settings) : Invocation :=
  .format (s.operand.getD ".") (s.has "check") (s.has "diff")
    { Style.standard with
      indent := ((s.value? "indent").bind ofDecimal?).getD Style.standard.indent
      brokenLiterals := !s.has "compact"
      spacedOperators := !s.has "tight-operators"
      spacedCommas := !s.has "tight-commas" }

/-- What `lint` is to do. -/
def lintInvocation (s : Settings) : Option Invocation :=
  let allowed := (s.values "allow").filterMap Rule.ofName?
  s.operand.map fun file => .lint file (allowed.foldl Policy.allow .strict) (s.has "json")

/-- Reads the words after the name of a command within the command. -/
def subcommand (name : String) (words : List String) : Option Invocation :=
  let options := if name = "fmt" then formatOptions else if name = "lint" then lintOptions else []
  match read options [] .empty words with
  | some (.done s) =>
    if name = "fmt" then some (formatInvocation s)
    else if name = "lint" then lintInvocation s
    else s.operand.map .generate
  | some .help => some .help
  | _ => none

/-- What the options and the operand of the command itself ask for, `other` being what is asked
    for if they do not matter.  An option that dumps does not go with an operand; a call for help
    outweighs both. -/
def choose (s : Settings) (other : Option Invocation) : Option Invocation :=
  if let some .help := other then some .help
  else if s.operand.isSome && !s.options.isEmpty then none
  else match s.value? "lex", s.value? "parse", s.value? "resolve" with
    | some file, _, _ => other.map fun _ => .tokens file
    | none, some file, _ => other.map fun _ => .tree file
    | none, none, some file => other.map fun _ => .scopes file
    | none, none, none => other

end Arguments

/-- What the words after the name of the command ask for, unless they are in error. -/
def Invocation.ofWords? (words : List String) : Option Invocation :=
  match Arguments.read Arguments.mainOptions ["fmt", "lint", "gen"] .empty words with
  | none => none
  | some .version => some .version
  | some .help => some .help
  | some (.command s name rest) => Arguments.choose s (Arguments.subcommand name rest)
  | some (.done s) =>
    Arguments.choose s <| some <| match s.operand with
      | some file => .lint file .strict false
      | none => .nothing

end CurlyScript
