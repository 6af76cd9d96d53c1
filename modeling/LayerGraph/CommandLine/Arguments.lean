import LayerGraph.Options

/-!
# Arguments of the command line

The first argument names a command, and flags follow. A flag with a value is written
`--name value` or `--name=value`, or `-n value`, `-nvalue` or `-n=value` for the two that have a
letter. A value that stands by itself does not begin with a hyphen, unless it is a lone one. Every
flag is given once at most, except for the one that collects values. Arguments are looked at from
left to right, so the first thing that is wrong or asks for help decides.
-/

namespace LayerGraph.CommandLine

/-- What the command line asks for. -/
inductive Command where
  | compile
  | dump
deriving DecidableEq

def Command.ofName? (name : String) : Option Command :=
  if name = "compile" then some .compile else if name = "dump" then some .dump else none

/-- The flags. -/
inductive Flag where
  | topology
  | options
  | debug
  | noOpt
  | outOfOrder
  | strategy
  | disable
  | dumpDir
  | filter
  | brief
  | help
deriving DecidableEq

namespace Flag

def all : List Flag :=
  [topology, options, debug, noOpt, outOfOrder, strategy, disable, dumpDir, filter, brief, help]

def name : Flag → String
  | topology => "topology"
  | options => "options"
  | debug => "debug"
  | noOpt => "no-opt"
  | outOfOrder => "out-of-order"
  | strategy => "strategy"
  | disable => "disable"
  | dumpDir => "dump-dir"
  | filter => "filter"
  | brief => "brief"
  | help => "help"

def letter? : Flag → Option Char
  | topology => some 't'
  | options => some 'o'
  | help => some 'h'
  | _ => none

def takesValue : Flag → Bool
  | topology | options | strategy | disable | dumpDir | filter => true
  | debug | noOpt | outOfOrder | brief | help => false

def isKnownTo (flag : Flag) : Command → Bool
  | .dump => true
  | .compile => flag != filter && flag != brief

def ofName? (command : Command) (name : String) : Option Flag :=
  all.find? fun flag => flag.name == name && flag.isKnownTo command

def ofLetter? (command : Command) (letter : Char) : Option Flag :=
  all.find? fun flag => flag.letter? == some letter && flag.isKnownTo command

end Flag

def strategy? (value : String) : Option MemoryStrategy :=
  if value = "basic" then some .basic
  else if value = "skipped-branch-aware" then some .skippedBranchAware
  else if value = "out-of-order-aware" then some .outOfOrderAware
  else none

/-- Whether a flag can have a value: a path is not empty, and a strategy has a name. -/
def Flag.accepts (flag : Flag) (value : String) : Bool :=
  match flag with
  | .topology | .options | .dumpDir => value != ""
  | .strategy => (strategy? value).isSome
  | _ => true

/-- A well-formed command line. -/
structure Invocation where
  command : Command
  topology : String
  options : Option String := none
  debug : Bool := false
  noOpt : Bool := false
  outOfOrder : Bool := false
  strategy : Option MemoryStrategy := none
  disabled : List String := []
  dumpDirectory : Option String := none
  filter : Option String := none
  brief : Bool := false
deriving DecidableEq

/-- Why a command line is not carried out. -/
inductive Refusal where
  | usage
  | help
deriving DecidableEq

/-- The flags that were given, with their values, in the order in which they stand. -/
abbrev Given : Type := List (Flag × String)

/-- Adds a flag with its value, which may not be given twice unless it collects values. -/
def Given.add (given : Given) (flag : Flag) (value : String) : Except Refusal Given :=
  if !flag.accepts value || (flag != .disable && given.any (·.1 == flag)) then .error .usage
  else .ok (given ++ [(flag, value)])

/-- Whether an argument can stand for a value: it is no flag. -/
def isValue (argument : String) : Bool :=
  match argument.toList with
  | '-' :: _ :: _ => false
  | _ => true

/-- A name and what follows the first equals sign, if there is one. -/
def splitAtEquals (text : List Char) : String × Option String :=
  match text.dropWhile (· != '=') with
  | [] => (String.ofList text, none)
  | _ :: value => (String.ofList (text.takeWhile (· != '=')), some (String.ofList value))

/-- A flag as it stands in an argument, with the value that is attached to it. -/
def flag? (command : Command) (argument : String) : Option (Flag × Option String) :=
  match argument.toList with
  | '-' :: '-' :: text =>
    let (name, value) := splitAtEquals text
    (Flag.ofName? command name).map fun flag => (flag, value)
  | '-' :: letter :: text =>
    (Flag.ofLetter? command letter).map fun flag =>
      (flag,
        if !flag.takesValue then none
        else
          match text with
          | [] => none
          | '=' :: value => some (String.ofList value)
          | value => some (String.ofList value))
  | _ => none

/-- The flags in a list of arguments, after those that were given before. -/
def collect (command : Command) (given : Given) : List String → Except Refusal Given
  | [] => .ok given
  | argument :: rest =>
    if argument = "--" then (if rest.isEmpty then .ok given else .error .usage)
    else
      match flag? command argument with
      | none => .error .usage
      | some (flag, attached) =>
        if flag.takesValue then
          match attached, rest with
          | some value, rest => do
            let given ← given.add flag value
            collect command given rest
          | none, [] => .error .usage
          | none, value :: rest =>
            if isValue value then do
              let given ← given.add flag value
              collect command given rest
            else .error .usage
        else if attached.isSome then .error .usage
        else if flag = .help then .error .help
        else do
          let given ← given.add flag ""
          collect command given rest

namespace Given

def value? (given : Given) (flag : Flag) : Option String := List.lookup flag given

def has (given : Given) (flag : Flag) : Bool := (given.value? flag).isSome

def invocation (given : Given) (command : Command) : Except Refusal Invocation :=
  match given.value? .topology with
  | none => .error .usage
  | some topology =>
    .ok
      { command, topology
        options := given.value? .options
        debug := given.has .debug
        noOpt := given.has .noOpt
        outOfOrder := given.has .outOfOrder
        strategy := (given.value? .strategy).bind strategy?
        disabled := (given.filter (·.1 == .disable)).map Prod.snd
        dumpDirectory := given.value? .dumpDir
        filter := given.value? .filter
        brief := given.has .brief }

end Given

/-- Whether the arguments after the word for help name nothing unknown. -/
def isHelpTopic : List String → Bool
  | [] => true
  | [topic] => (Command.ofName? topic).isSome || topic = "help"
  | _ => false

/-- Whether an argument in the place of the command asks for help. -/
def asksForHelp (argument : String) : Bool :=
  match argument.toList with
  | '-' :: 'h' :: _ => true
  | _ => argument == "--help"

def parse : List String → Except Refusal Invocation
  | [] => .error .usage
  | first :: rest =>
    match Command.ofName? first with
    | some command => do
      let given ← collect command [] rest
      given.invocation command
    | none =>
      if asksForHelp first then .error .help
      else if first = "help" ∧ isHelpTopic rest then .error .help
      else .error .usage

end LayerGraph.CommandLine
