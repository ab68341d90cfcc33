import Stencil.Number.Literal
import Stencil.Text.Utf8

/-!
# Options of the command line

Options have long names behind two hyphens, and some have a letter behind one hyphen. An argument is
given behind an equals sign, as the next word, or, for a letter, directly behind it; letters without
arguments can be written together. Two hyphens alone end the options. Every other word is the name
of a template, wherever it stands.

A word that looks like an option is not taken as an argument, except for a negative number where a
number is expected.

## Main definitions

* `escape?` – what stands behind a backslash;
* `unquote?` – the argument that a word stands for;
* `Options` – the settings of a call; `Invocation` – a call with the names of its templates;
* `OptionKey`, `OptionKey.named?` – the options;
* `Invocation.parse` – reading the words of a call; `OptionError` – why they are refused.
-/

namespace Stencil.Command

/-! ## Quoted arguments

An argument that begins with a double quote has to end with one, and stands for what is written in
between. A backslash begins an escape: a letter for a control character, a byte by two hexadecimal
or three octal digits, or a character by its code. A line feed has to be escaped, and a stray byte
is read as U+FFFD. -/

/-- The single characters that stand for others behind a backslash. -/
def letterEscapes : List (Char × Nat) :=
  [('a', 0x7), ('b', 0x8), ('f', 0xc), ('n', 0xa), ('r', 0xd), ('t', 0x9), ('v', 0xb),
   ('\\', 0x5c), ('"', 0x22)]

/-- The number of hexadecimal digits behind a letter. -/
def codeEscapes : List (Char × Nat) := [('x', 2), ('u', 4), ('U', 8)]

/-- The byte given by three octal digits at the head of the characters. -/
def octalByte? (cs : List Char) : Option Text := do
  let n ← Number.digits? 8 (cs.take 3)
  if (cs.take 3).length = 3 ∧ n < 256 then some [UInt8.ofNat n] else none

/-- What the characters behind a backslash stand for, and how many of them belong to it. -/
def escape? : List Char → Option (Text × Nat)
  | [] => none
  | c :: cs =>
    match letterEscapes.lookup c, codeEscapes.lookup c with
    | some n, _ => some ([UInt8.ofNat n], 1)
    | none, some digits => do
      let code ← Number.hexCode? digits cs
      let bytes ← if c = 'x' then some [UInt8.ofNat code]
        else (Text.scalar? 0 code).map String.utf8EncodeChar
      return (bytes, digits + 1)
    | none, none => (octalByte? (c :: cs)).map (·, 3)

/-- What stands before the closing quote, which has to be the last character. The first `skip`
characters are already accounted for. -/
def untilQuote : Nat → List Char → Option Text
  | _, [] => none
  | skip + 1, _ :: cs => untilQuote skip cs
  | 0, c :: cs =>
    if c = '"' then if cs.isEmpty then some [] else none
    else if c = '\n' then none
    else if c = '\\' then do
      let (bytes, n) ← escape? cs
      return bytes ++ (← untilQuote n cs)
    else (untilQuote 0 cs).map (String.utf8EncodeChar c ++ ·)

/-- The argument that a word stands for. -/
def unquote? : Text → Option Text
  | 0x22 :: t => untilQuote 0 (Text.chars t)
  | t => some t

/-! ## Settings and calls -/

/-- The settings of a call. -/
structure Options where
  /-- The configuration file, if one is given. -/
  config : Text := []
  /-- The directory of templates, if one is given. -/
  sourceDir : Text := []
  /-- The directory of compiled templates, if one is given. -/
  compileDir : Text := []
  /-- How many templates are compiled at the same time, if it is positive. -/
  workers : Int := 0
  /-- Whether dynamic blocks are stored compressed. -/
  compress : Bool := false
  /-- Whether the trees of templates are shown instead of compiling them. -/
  dump : Bool := false
  /-- Whether the compiled templates are compared instead of written. -/
  check : Bool := false
  /-- Whether colours are switched off. -/
  noColor : Bool := false
  /-- Whether the work is reported. -/
  verbose : Bool := false
  /-- Whether only the version is shown. -/
  version : Bool := false
  deriving DecidableEq, Repr

/-- The options. -/
inductive OptionKey where
  | config | sourceDir | compileDir | workers | compress | dump | check | noColor | verbose
  | version | help
  deriving DecidableEq, Repr

namespace OptionKey

/-- The options with their long names, and their letters if they have one. -/
def all : List (OptionKey × String × Option Char) :=
  [(config, "config", some 'c'), (sourceDir, "source-dir", none), (compileDir, "compile-dir", none),
   (workers, "workers", some 'j'), (compress, "compress-dynamic", none), (dump, "dump", none),
   (check, "check", none), (noColor, "no-color", none), (verbose, "verbose", some 'v'),
   (version, "version", none), (help, "help", some 'h')]

/-- The option with a long name. -/
def named? (name : Text) : Option OptionKey :=
  (all.find? fun e => Text.ofString e.2.1 = name).map Prod.fst

/-- The option with a letter. -/
def lettered? (b : UInt8) : Option OptionKey :=
  (all.find? fun e => e.2.2.map Char.toNat == some b.toNat).map Prod.fst

/-- Whether an option has an argument. -/
def takesArgument : OptionKey → Bool
  | config | sourceDir | compileDir | workers => true
  | _ => false

/-- The option as it is named in messages. -/
def label (k : OptionKey) : Text :=
  match all.find? fun e => e.1 = k with
  | some (_, name, some c) => "-" ++ Text.ofChars [c] ++ ", --" ++ Text.ofString name
  | some (_, name, none) => "--" ++ Text.ofString name
  | none => []

end OptionKey

/-- Why the words of a call are refused. -/
inductive OptionError where
  /-- There is no such option. -/
  | unknown (name : Text)
  /-- The argument of an option is missing. -/
  | argumentRequired (k : OptionKey)
  /-- An option has no argument. -/
  | argumentRefused (k : OptionKey)
  /-- The argument of an option is not of the right form. -/
  | argumentInvalid (k : OptionKey) (argument : Text)
  /-- The list of options was asked for. -/
  | help
  deriving DecidableEq, Repr

/-- The wording of a refusal. -/
def OptionError.message : OptionError → Text
  | unknown name => "unknown flag " ++ name.quoted
  | argumentRequired k => "expected argument for flag " ++ k.label.quoted
  | argumentRefused k => "bool flag " ++ k.label.quoted ++ " cannot have an argument"
  | argumentInvalid k argument => "invalid argument for flag " ++ k.label.quoted ++ ": " ++ argument
  | help => "no help available"

/-- A call: its settings and the names of its templates. -/
structure Invocation where
  /-- The settings. -/
  options : Options := {}
  /-- The names in the order given. -/
  names : List Text := []
  deriving DecidableEq, Repr

/-- Whether a word looks like an option. -/
def looksLikeOption : Text → Bool
  | 0x2d :: 0x2d :: b :: _ => b != 0x2d
  | 0x2d :: b :: _ => b != 0x2d
  | _ => false

/-- Whether a word can be taken as the argument of an option. -/
def canBeArgument (k : OptionKey) (t : Text) : Bool :=
  !looksLikeOption t ||
    (k == .workers && match t with
      | 0x2d :: b :: _ => isAsciiDigit b
      | _ => false)

namespace Options

/-- Sets an option without argument. -/
def turnOn (o : Options) : OptionKey → Options
  | .compress => { o with compress := true }
  | .dump => { o with dump := true }
  | .check => { o with check := true }
  | .noColor => { o with noColor := true }
  | .verbose => { o with verbose := true }
  | .version => { o with version := true }
  | _ => o

/-- Sets an option with an argument. -/
def assign (o : Options) (k : OptionKey) (argument : Text) : Except OptionError Options :=
  match unquote? argument with
  | none => .error (.argumentInvalid k argument)
  | some t =>
    match k with
    | .config => .ok { o with config := t }
    | .sourceDir => .ok { o with sourceDir := t }
    | .compileDir => .ok { o with compileDir := t }
    | _ =>
      match Number.integer? t.chars with
      | some n => .ok { o with workers := n }
      | none => .error (.argumentInvalid k argument)

/-- Applies an option, with the argument that was given together with it, or else the next word.
Gives the options and the words left. -/
def apply (o : Options) (k : OptionKey) (given : Option Text) (words : List Text) :
    Except OptionError (Options × List Text) :=
  if k = .help then .error .help
  else if !k.takesArgument then
    if given.isSome then .error (.argumentRefused k) else .ok (o.turnOn k, words)
  else
    match given, words with
    | some t, _ => (o.assign k t).map (·, words)
    | none, [] => .error (.argumentRequired k)
    | none, t :: words =>
      if t = "--" || !canBeArgument k t then .error (.argumentRequired k)
      else (o.assign k t).map (·, words)

/-- Applies letters that are written together. Only the last one can take the next word. -/
def applyLetters (o : Options) : Text → List Text → Except OptionError (Options × List Text)
  | [], words => .ok (o, words)
  | b :: letters, words =>
    match OptionKey.lettered? b with
    | none => .error (.unknown [b])
    | some k => do
      let (o, rest) ← o.apply k none (if letters.isEmpty then words else [])
      o.applyLetters letters (if letters.isEmpty then rest else words)

/-- Applies the word behind one hyphen. -/
def applyShort (o : Options) (t : Text) (words : List Text) :
    Except OptionError (Options × List Text) :=
  match t with
  | [] => .ok (o, words)
  | b :: rest =>
    match OptionKey.lettered? b with
    | none => .error (.unknown [b])
    | some k =>
      match rest with
      | [] => o.apply k none words
      | c :: argument =>
        if c = 0x3d then o.apply k (some argument) words
        else if k.takesArgument then o.apply k (some rest) words
        else o.applyLetters t words

/-- Applies the word behind two hyphens. -/
def applyLong (o : Options) (t : Text) (words : List Text) :
    Except OptionError (Options × List Text) :=
  let (name, argument) := match Text.cut? 0x3d t with
    | some (name, argument) => (name, some argument)
    | none => (t, none)
  match OptionKey.named? name with
  | none => .error (.unknown name)
  | some k => o.apply k argument words

end Options

/-- Reads the words of a call, at most `bound` of them. -/
def Invocation.read : Nat → Invocation → List Text → Except OptionError Invocation
  | 0, i, _ => .ok i
  | _, i, [] => .ok i
  | bound + 1, i, w :: words =>
    if w = "--" then .ok { i with names := i.names ++ words }
    else if !looksLikeOption w then read bound { i with names := i.names ++ [w] } words
    else do
      let (options, words) ← match w with
        | 0x2d :: 0x2d :: t => i.options.applyLong t words
        | _ => i.options.applyShort w.tail words
      read bound { i with options } words

/-- Reads the words of a call. -/
def Invocation.parse (words : List Text) : Except OptionError Invocation :=
  Invocation.read words.length {} words

end Stencil.Command
