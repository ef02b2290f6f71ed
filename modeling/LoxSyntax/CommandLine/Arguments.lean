/-
  LoxSyntax.CommandLine.Arguments — what the arguments of the command ask for.

  Words up to the first `--` are told apart before anything is done: a word is an option
  when it is one, when the part before its `=` is one, when it begins with two dashes and
  its part before `=` begins exactly one long option, or when its first two characters
  are a short option, the rest being its value. Else it is positional if it is empty or
  has no dash in front, is a dash alone, is a negative number, or holds a space; any other
  word is an unknown option. All words behind `--` are positional.

  No option takes a value. The value of a short option is read as further short options;
  any other value is an error. The first positional word is the source, the others and
  the unknown options are not recognized. The mark `--` counts as taken when the source
  is the word next to it, behind it or, with nothing taken since, in front of it.

  Help is given as soon as it is asked for. An ambiguous option is an error before all.
-/

import LoxSyntax.Text.Blank
import LoxSyntax.Text.DecimalDigit
import LoxSyntax.Text.Quoted

namespace LoxSyntax.CommandLine

/-! ## Options -/

inductive Flag where
  | help
  | string
  | tokens
  | json
  | repl
  deriving DecidableEq, Repr

namespace Flag

def all : List Flag := [.help, .string, .tokens, .json, .repl]

def short? : Flag → Option Char
  | .help => some 'h'
  | .string => some 's'
  | _ => none

def long : Flag → String
  | .help => "--help"
  | .string => "--string"
  | .tokens => "--tokens"
  | .json => "--json"
  | .repl => "--repl"

def ofShort? (c : Char) : Option Flag := all.find? (·.short? == some c)

def ofLong? (s : List Char) : Option Flag := all.find? (·.long.toList == s)

/-- The short option, if there is one, and the long one. -/
def names (f : Flag) : String :=
  match f.short? with
  | some c => "-" ++ String.singleton c ++ "/" ++ f.long
  | none => f.long

/-- The option that a word is, in full. -/
def ofWord? : List Char → Option (Flag × Bool)
  | ['-', c] => (ofShort? c).map (·, true)
  | s => (ofLong? s).map (·, false)

end Flag

inductive UsageError where
  | ambiguous (word : String) (flags : List Flag)
  | ignoredValue (flag : Flag) (value : String)
  | unrecognized (words : List String)
  deriving DecidableEq, Repr

def UsageError.message : UsageError → String
  | .ambiguous word flags =>
    "ambiguous option: " ++ word ++ " could match " ++ String.intercalate ", " (flags.map (·.long))
  | .ignoredValue flag value => "argument " ++ flag.names ++ ": ignored explicit argument " ++ Text.quote value
  | .unrecognized words => "unrecognized arguments: " ++ String.intercalate " " words

/-! ## Words -/

inductive Word where
  | positional (s : String)
  | flag (f : Flag) (isShort : Bool) (value : Option (List Char))
  | unknown (s : String)
  deriving DecidableEq, Repr

/-- A dash and digits, with at most one point among them that has a digit behind it; a
    line feed may follow. -/
def isNegativeNumber : List Char → Bool
  | '-' :: cs =>
    let cs := if cs.getLast? = some '\n' then cs.dropLast else cs
    let behind := cs.dropWhile Text.isDecimalDigit
    match behind with
    | [] => !cs.isEmpty
    | '.' :: ds => !ds.isEmpty && ds.all Text.isDecimalDigit
    | _ => false
  | _ => false

def splitValue (s : List Char) : List Char × Option (List Char) :=
  match s.dropWhile (· != '=') with
  | [] => (s, none)
  | _ :: value => (s.takeWhile (· != '='), some value)

/-- The options that a word may abbreviate or begin with, each with its value. -/
def candidates (s : List Char) : List (Flag × Bool × Option (List Char)) :=
  match s with
  | '-' :: '-' :: _ =>
    let (name, value) := splitValue s
    (Flag.all.filter fun f => name.isPrefixOf f.long.toList).map fun f => (f, false, value)
  | '-' :: c :: rest => ((Flag.ofShort? c).map fun f => (f, true, some rest)).toList
  | _ => []

/-- A word with a dash in front that is no option in full. -/
def abbreviated (word : String) : Except UsageError Word :=
  match candidates word.toList with
  | [(f, isShort, value)] => .ok (.flag f isShort value)
  | [] =>
    .ok (if isNegativeNumber word.toList || word.toList.contains ' ' then .positional word else .unknown word)
  | many => .error (.ambiguous word (many.map (·.1)))

def classify (word : String) : Except UsageError Word :=
  match word.toList with
  | [] | ['-'] => .ok (.positional word)
  | c :: cs =>
    if c ≠ '-' then .ok (.positional word)
    else
      match Flag.ofWord? (c :: cs), splitValue (c :: cs) with
      | some (f, isShort), _ => .ok (.flag f isShort none)
      | none, (name, some value) =>
        match Flag.ofWord? name with
        | some (f, isShort) => .ok (.flag f isShort (some value))
        | none => abbreviated word
      | none, (_, none) => abbreviated word

/-- The options that a value of a short option adds. -/
def moreFlags (f : Flag) : List Char → Except UsageError (List Flag)
  | [] => .ok []
  | c :: cs =>
    match Flag.ofShort? c with
    | some g => (moreFlags g cs).map (g :: ·)
    | none => .error (.ignoredValue f (String.ofList (c :: cs)))

def flagsOf (f : Flag) (isShort : Bool) : Option (List Char) → Except UsageError (List Flag)
  | none => .ok [f]
  | some [] => .error (.ignoredValue f "")
  | some value => if isShort then (moreFlags f value).map (f :: ·) else .error (.ignoredValue f (String.ofList value))

/-! ## Requests -/

/-- What to show of a source, and in which form. -/
structure Display where
  tokens : Bool
  json : Bool
  deriving DecidableEq, Repr

inductive Request where
  | help
  | usage (e : UsageError)
  | prompt (showTokens : Bool)
  | text (source : String) (display : Display)
  | file (name : String) (display : Display)
  deriving DecidableEq, Repr

/-- What was read so far; `fresh` says that the last word was the source. -/
structure State where
  flags : List Flag
  source : Option String
  fresh : Bool
  extras : List String
  deriving DecidableEq, Repr

def State.start : State := ⟨[], none, false, []⟩

def State.positional (s : State) (word : String) : State :=
  match s.source with
  | none => { s with source := some word, fresh := true }
  | some _ => { s with fresh := false, extras := s.extras ++ [word] }

/-- The words behind the mark `--`. -/
def State.tail (s : State) (words : List String) : State :=
  match s.source, words with
  | none, [] => s
  | none, word :: words => { s with source := some word, extras := s.extras ++ words }
  | some _, words =>
    if s.fresh then { s with extras := s.extras ++ words } else { s with extras := s.extras ++ "--" :: words }

def State.has (s : State) (f : Flag) : Bool := s.flags.contains f

def State.request (s : State) : Request :=
  if s.extras.isEmpty then
    match s.has .repl, s.source with
    | false, some source =>
      let display : Display := ⟨s.has .tokens, s.has .json⟩
      if s.has .string then .text source display else .file source display
    | _, _ => .prompt (s.has .tokens)
  else .usage (.unrecognized s.extras)

/-- Goes through the words; `tail` are the words behind a mark `--`, if there was one. -/
def follow (s : State) (tail : Option (List String)) : List Word → Request
  | [] =>
    match tail with
    | some words => (s.tail words).request
    | none => s.request
  | .positional word :: rest => follow (s.positional word) tail rest
  | .unknown word :: rest => follow { s with fresh := false, extras := s.extras ++ [word] } tail rest
  | .flag f isShort value :: rest =>
    match flagsOf f isShort value with
    | .error e => .usage e
    | .ok flags =>
      if flags.contains .help then .help
      else follow { s with flags := s.flags ++ flags, fresh := false } tail rest

def splitMark (arguments : List String) : List String × Option (List String) :=
  match arguments.dropWhile (· != "--") with
  | [] => (arguments, none)
  | _ :: tail => (arguments.takeWhile (· != "--"), some tail)

def parse (arguments : List String) : Request :=
  let (words, tail) := splitMark arguments
  match words.mapM classify with
  | .error e => .usage e
  | .ok words => follow .start tail words

/-! ## Texts -/

def usageLine : String := "usage: lox [-h] [-s] [--tokens] [--json] [--repl] [source]\n"

def help : String :=
  usageLine ++
    "\npositional arguments:\n" ++
    "  source        Filename or raw source (with -s)\n" ++
    "\noptions:\n" ++
    "  -h, --help    show this help message and exit\n" ++
    "  -s, --string  Interpret source as literal string\n" ++
    "  --tokens      Print the token stream instead of the AST\n" ++
    "  --json        Print output as JSON\n" ++
    "  --repl        Launch the interactive prompt\n"

def usage (e : UsageError) : String := usageLine ++ "lox: error: " ++ e.message ++ "\n"

end LoxSyntax.CommandLine
