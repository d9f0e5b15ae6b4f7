import EdmxPruning.Command.Run

/-! The command line: a subcommand and its options, in short or long form. An option takes no
value, one value or as many as follow; a value does not start with a dash. -/
namespace EdmxPruning

inductive CommandOption where
  | input
  | output
  | entities
  | profile
  | feature
  | dryRun
  | verbose
  deriving DecidableEq, Repr

inductive Arity where
  | flag
  | single
  | several
  deriving DecidableEq, Repr

namespace CommandOption

def short? : CommandOption → Option Char
  | .input => some 'i'
  | .output => some 'o'
  | .entities => some 'e'
  | .feature => some 'f'
  | .verbose => some 'v'
  | .profile | .dryRun => none

def long : CommandOption → String
  | .input => "input"
  | .output => "output"
  | .entities => "entities"
  | .profile => "profile"
  | .feature => "feature"
  | .dryRun => "dry-run"
  | .verbose => "verbose"

def arity : CommandOption → Arity
  | .input | .output | .profile | .feature => .single
  | .entities => .several
  | .dryRun | .verbose => .flag

def once : CommandOption → Bool
  | .input | .output | .profile | .dryRun => true
  | .entities | .feature | .verbose => false

def isPath : CommandOption → Bool
  | .input | .output | .profile => true
  | _ => false

def ofFilter : List CommandOption :=
  [.input, .output, .entities, .profile, .feature, .dryRun, .verbose]

def ofClosure : List CommandOption := [.input, .entities, .profile, .feature, .verbose]

end CommandOption

inductive UsageError where
  | noCommand
  | unknownCommand (name : String)
  | unknownOption (argument : String)
  | unexpectedArgument (argument : String)
  | unexpectedValue (option : CommandOption)
  | missingValue (option : CommandOption)
  | emptyValue (option : CommandOption)
  | repeatedOption (option : CommandOption)
  | missingOption (option : CommandOption)
  deriving DecidableEq, Repr

def UsageError.message : UsageError → String
  | .noCommand => "a subcommand is required: filter or closure"
  | .unknownCommand name => "unrecognized subcommand: " ++ name
  | .unknownOption argument => "unexpected option: " ++ argument
  | .unexpectedArgument argument => "unexpected argument: " ++ argument
  | .unexpectedValue option => "option takes no value: --" ++ option.long
  | .missingValue option => "a value is required for --" ++ option.long
  | .emptyValue option => "an empty value is not accepted for --" ++ option.long
  | .repeatedOption option => "option is given more than once: --" ++ option.long
  | .missingOption option => "option is required: --" ++ option.long

structure Occurrence where
  option : CommandOption
  values : List String
  deriving DecidableEq, Repr

namespace Occurrence

/-- A lone dash is a value like any other. -/
def isValue (argument : String) : Bool := argument.toList.head? != some '-' || argument == "-"

def following (option : CommandOption) (arguments : List String) :
    Except UsageError (Occurrence × List String) :=
  match option.arity with
  | .flag => .ok (⟨option, []⟩, arguments)
  | .single =>
      match arguments with
      | value :: rest =>
          if isValue value then .ok (⟨option, [value]⟩, rest) else .error (.missingValue option)
      | [] => .error (.missingValue option)
  | .several =>
      match arguments.takeWhile isValue with
      | [] => .error (.missingValue option)
      | values => .ok (⟨option, values⟩, arguments.dropWhile isValue)

def long (allowed : List CommandOption) (argument : List Char) (rest : List String) :
    Except UsageError (Occurrence × List String) :=
  let name := argument.takeWhile (· != '=')
  match allowed.find? (·.long.toList == name), argument.dropWhile (· != '=') with
  | none, _ => .error (.unknownOption (.ofList name))
  | some option, [] => following option rest
  | some option, _ :: value =>
      if option.arity = .flag then .error (.unexpectedValue option)
      else .ok (⟨option, [.ofList value]⟩, rest)

/-- Short flags may share a dash; the first option with a value ends the row and takes what is left
of the argument, if anything is. -/
def short (allowed : List CommandOption) (rest : List String) :
    List Char → Except UsageError (List Occurrence × List String)
  | [] => .ok ([], rest)
  | c :: more =>
      match allowed.find? (·.short? == some c) with
      | none => .error (.unknownOption c.toString)
      | some option =>
          if option.arity = .flag then do
            let (later, rest) ← short allowed rest more
            .ok (⟨option, []⟩ :: later, rest)
          else match more with
            | [] => do
                let (occurrence, rest) ← following option rest
                .ok ([occurrence], rest)
            | '=' :: value => .ok ([⟨option, [.ofList value]⟩], rest)
            | value => .ok ([⟨option, [.ofList value]⟩], rest)

def allWithin (allowed : List CommandOption) :
    Nat → List String → Except UsageError (List Occurrence)
  | 0, _ => .ok []
  | _ + 1, [] => .ok []
  | fuel + 1, argument :: rest =>
      match argument.toList with
      | ['-', '-'] =>
          match rest with
          | [] => .ok []
          | extra :: _ => .error (.unexpectedArgument extra)
      | '-' :: '-' :: name => do
          let (occurrence, rest) ← long allowed name rest
          let later ← allWithin allowed fuel rest
          .ok (occurrence :: later)
      | '-' :: c :: more => do
          let (occurrences, rest) ← short allowed rest (c :: more)
          let later ← allWithin allowed fuel rest
          .ok (occurrences ++ later)
      | _ => .error (.unexpectedArgument argument)

def all (allowed : List CommandOption) (arguments : List String) :
    Except UsageError (List Occurrence) :=
  allWithin allowed arguments.length arguments

end Occurrence

namespace Command

def valuesOf (option : CommandOption) (occurrences : List Occurrence) : List String :=
  (occurrences.filter (·.option == option)).flatMap Occurrence.values

def isGiven (option : CommandOption) (occurrences : List Occurrence) : Bool :=
  occurrences.any (·.option == option)

def check (allowed : List CommandOption) (occurrences : List Occurrence) :
    Except UsageError Unit :=
  match allowed.find? fun option =>
      option.once && 1 < (occurrences.filter (·.option == option)).length with
  | some option => .error (.repeatedOption option)
  | none =>
      match allowed.find? fun option =>
          option.isPath && (valuesOf option occurrences).contains "" with
      | some option => .error (.emptyValue option)
      | none =>
          if isGiven .feature occurrences && !isGiven .profile occurrences then
            .error (.missingOption .profile)
          else .ok ()

def required (option : CommandOption) (occurrences : List Occurrence) :
    Except UsageError String :=
  match valuesOf option occurrences with
  | value :: _ => .ok value
  | [] => .error (.missingOption option)

def selection (occurrences : List Occurrence) : Selection :=
  ⟨valuesOf .entities occurrences, (valuesOf .profile occurrences).head?,
    valuesOf .feature occurrences⟩

def ofFilterArguments (arguments : List String) :
    Except UsageError (List Occurrence × Command) := do
  let occurrences ← Occurrence.all CommandOption.ofFilter arguments
  check CommandOption.ofFilter occurrences
  let input ← required .input occurrences
  let output ← required .output occurrences
  .ok (occurrences, .filter input output (selection occurrences) (isGiven .dryRun occurrences))

def ofClosureArguments (arguments : List String) :
    Except UsageError (List Occurrence × Command) := do
  let occurrences ← Occurrence.all CommandOption.ofClosure arguments
  check CommandOption.ofClosure occurrences
  let input ← required .input occurrences
  .ok (occurrences, .closure input (selection occurrences))

end Command

structure Invocation where
  verbosity : Nat
  command : Command
  deriving DecidableEq, Repr

namespace Invocation

/-- Before the subcommand there is nothing but flags that ask for more events. -/
def ofArguments : List String → Except UsageError Invocation
  | [] => .error .noCommand
  | argument :: rest =>
      if Occurrence.isValue argument then do
        let (occurrences, command) ← match argument with
          | "filter" => Command.ofFilterArguments rest
          | "closure" => Command.ofClosureArguments rest
          | _ => .error (.unknownCommand argument)
        .ok ⟨(occurrences.filter (·.option == .verbose)).length, command⟩
      else if argument = "--" then .error (.unexpectedArgument argument)
      else do
        let flags ← Occurrence.all [.verbose] [argument]
        let invocation ← ofArguments rest
        .ok { invocation with verbosity := flags.length + invocation.verbosity }

end Invocation

structure Ending (σ : Type) where
  exitCode : Nat
  output : String
  events : List Event
  files : σ

def unlines (lines : List String) : String := .join (lines.map (· ++ "\n"))

/-- Wrong usage ends with exit code two, a command that fails with one. -/
def Invocation.run {σ : Type} (storage : Storage σ) (arguments : List String) (files : σ) :
    Ending σ :=
  match ofArguments arguments with
  | .error _ => ⟨2, "", [], files⟩
  | .ok invocation =>
      let outcome := invocation.command.run storage files
      let events := Event.upTo (.ofVerbosity invocation.verbosity) outcome.events
      match outcome.result with
      | .error _ => ⟨1, "", events, outcome.files⟩
      | .ok lines => ⟨0, unlines lines, events, outcome.files⟩

end EdmxPruning
