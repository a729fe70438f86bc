import LuaLint.Command.Flag

/-!
# Commands

What the program can be asked to do, and how the command is found in the command line: it is the
first argument that is neither a flag nor the value of one. Without a command the arguments are
sources to be checked.
-/

namespace LuaLint

/-! ## The commands -/

inductive Command where
  /-- No command: sources are checked as well. -/
  | root
  | lint
  /-- Prints or validates standard libraries. -/
  | std
  /-- Tells about checks and standard libraries. -/
  | doc
  | lsp
  /-- Converts a library to the newer format. -/
  | upgradeStd
  | help
  | completion
  deriving DecidableEq, Repr

namespace Command

def named : List (Bytes × Command) :=
  [("lint", .lint), ("std", .std), ("doc", .doc), ("lsp", .lsp), ("upgrade-std", .upgradeStd),
   ("help", .help), ("completion", .completion)]

def ofName? (name : Bytes) : Option Command :=
  (named.find? fun entry => entry.1 == name).map Prod.snd

def sharedFlags : List Flag := [.config, .color, .verbose, .std]

def lintFlags : List Flag := [.json, .quiet, .list, .timings, .jobs, .exclude]

def ownFlags : Command → List Flag
  | .root | .lint => lintFlags
  | .std => [.validate]
  | .doc => [.listGlobals]
  | .lsp => [.stdio, .port]
  | .upgradeStd | .help | .completion => []

def flags (c : Command) : List Flag := c.ownFlags ++ sharedFlags ++ [.help]

/-! ## Finding the command -/

def outerFlags : List Flag := lintFlags ++ sharedFlags

/-- Whether an argument is a flag whose value is the next argument. Unknown flags are taken to have
values. -/
def takesNext (arg : Bytes) : Bool :=
  let isSwitch (f : Option Flag) : Bool := f.any fun f => f.kind = .switch
  if arg.contains 61 then false
  else if arg.startsWith "--" then !isSwitch (Flag.ofName? outerFlags (arg.drop 2))
  else match arg with
    | [45, letter] => !isSwitch (Flag.ofLetter? outerFlags letter)
    | _ => false

/-- The first argument that is neither a flag nor the value of one. The search ends at a flag whose
value is the last argument. -/
def firstWord? : List Bytes → Option Bytes
  | [] => none
  | arg :: rest =>
    if arg == "--" then none
    else if takesNext arg then
      match rest with
      | [] => none
      | [_] => none
      | _ :: rest => firstWord? rest
    else if arg.isEmpty || arg.startsWith "-" then firstWord? rest
    else some arg

/-- The arguments without the first one that is a given word and not the value of a flag. -/
def dropWord (word : Bytes) : List Bytes → List Bytes
  | [] => []
  | arg :: rest =>
    if arg == "--" then arg :: rest
    else if takesNext arg then
      match rest with
      | [] => [arg]
      | value :: rest => arg :: value :: dropWord word rest
    else if arg == word then rest
    else arg :: dropWord word rest

def select (args : List Bytes) : Command × List Bytes :=
  match firstWord? args with
  | none => (.root, args)
  | some word =>
    match ofName? word with
    | none => (.root, args)
    | some command => (command, dropWord word args)

end Command

/-! ## Numbers of arguments -/

inductive ArgumentFault where
  | atMostOne (count : Nat)
  | exactlyOne (count : Nat)
  | none (first : Bytes)
  deriving DecidableEq, Repr

namespace ArgumentFault

def message : ArgumentFault → Bytes
  | .atMostOne count => "accepts at most 1 arg(s), received " ++ Bytes.ofNat count
  | .exactlyOne count => "accepts 1 arg(s), received " ++ Bytes.ofNat count
  | .none first => "unknown command " ++ Quoted.text first ++ " for \"selene lsp\""

end ArgumentFault

def Command.argumentFault? (c : Command) (args : List Bytes) : Option ArgumentFault :=
  match c with
  | .std | .doc => if args.length > 1 then some (.atMostOne args.length) else none
  | .upgradeStd => if args.length ≠ 1 then some (.exactlyOne args.length) else none
  | .lsp => args.head?.map .none
  | _ => none

end LuaLint
