import Twd.Dscp.Dscp
import Twd.Getopt.Getopt

/-!
# The command line of `twd`

Translation of `process_options` of `twd.c`, of the two tables it hands to `getopt_long` and of the
table of output formats, and what `print_enabled_options` prints of the codepoint.
-/

namespace Twd

open Getopt Strtol

/-- `OutputType_t`; `none` is the zero pointer. -/
structure OutputType where
  desc : Option Word
  id : BitVec 32
  deriving DecidableEq, Repr

def outputType : List OutputType :=
  [⟨some (ascii "plain"), 0⟩, ⟨some (ascii "csv"), 1⟩, ⟨some (ascii "json"), 2⟩]

/-- The members of `TWD_Options_t` that `process_options` sets. -/
structure TwdOptions where
  verbose : Bool
  up : Bool
  dn : Bool
  dontfork : Bool
  passfail : Bool
  ecn : Bool
  ipv4 : Bool
  ipv6 : Bool
  server : Bool
  testOwd : Bool
  testEcn : Bool
  testDiffserv : Bool
  testAll : Bool
  testSelf : Bool
  testFq : Bool
  testBw : Bool
  debug : BitVec 32
  packetSize : BitVec 32
  length : BitVec 64
  interval : BitVec 64
  diffserv : BitVec 32
  format : BitVec 32
  logdir : Option Word
  filename : Option Word
  deriving DecidableEq, Repr

/-- `long_options` up to the entry without a name. -/
def longOptions : List LongOption := [
  ⟨ascii "debug", .required, letter 'D'⟩,
  ⟨ascii "help", .no, letter 'h'⟩,
  ⟨ascii "interval", .required, letter 'i'⟩,
  ⟨ascii "output", .required, letter 'o'⟩,
  ⟨ascii "write", .required, letter 'w'⟩,
  ⟨ascii "random-data", .no, letter 'r'⟩,
  ⟨ascii "size", .required, letter 's'⟩,
  ⟨ascii "passfail", .no, letter 'P'⟩,
  ⟨ascii "verbose", .no, letter 'v'⟩,
  ⟨ascii "length", .required, letter 'l'⟩,
  ⟨ascii "logdir", .required, letter 'L'⟩,
  ⟨ascii "server", .required, letter 'S'⟩,
  ⟨ascii "dontfork", .no, letter 'F'⟩,
  ⟨ascii "up", .no, letter '1'⟩,
  ⟨ascii "down", .no, letter '2'⟩,
  ⟨ascii "bidir", .no, letter '3'⟩,
  ⟨ascii "ipv4", .no, letter '4'⟩,
  ⟨ascii "ipv6", .no, letter '6'⟩,
  ⟨ascii "ecn", .no, letter 'e'⟩,
  ⟨ascii "diffserv", .required, letter 'd'⟩,
  ⟨ascii "test", .no, letter 't'⟩,
  ⟨ascii "test-ecn", .no, letter 'E'⟩,
  ⟨ascii "test-diffserv", .no, letter 'C'⟩,
  ⟨ascii "test-self", .no, letter '@'⟩,
  ⟨ascii "test-fq", .no, letter 'Q'⟩,
  ⟨ascii "test-bw", .no, letter 'B'⟩,
  ⟨ascii "test-all", .no, letter 'T'⟩]

def qstring : Word := ascii "Si:D:s:l:L:o:m:w:sh?Pv12346FeCTt"

/-- Why `process_options` does not return. -/
inductive Stop
  /-- It exits through `usage`. -/
  | usage
  /-- It reads past the end of a table or through the zero pointer. -/
  | undefined
  deriving DecidableEq, Repr

/-- The loop over `output_type`: the format afterwards. The loop ends at an entry without a
`desc`. -/
def findFormat (optarg : Word) (format : BitVec 32) :
    List OutputType → Except Stop (BitVec 32)
  | [] => .error .undefined
  | ⟨none, _⟩ :: _ => .ok format
  | ⟨some desc, id⟩ :: rest => findFormat optarg (if desc = optarg then id else format) rest

/-- `strtoul(optarg,NULL,10)` -/
def number : Option Word → Except Stop (BitVec 64)
  | none => .error .undefined
  | some optarg => .ok (strtoul 10 optarg)

/-- The body of the switch. -/
def processOption (o : TwdOptions) (item : Item) : Except Stop TwdOptions :=
  match Char.ofNat item.opt.toNat with
  | 'S' => .ok { o with server := true }
  | 'D' => (number item.optarg).map fun n => { o with debug := n.setWidth 32 }
  | 'F' => .ok { o with dontfork := true }
  | 'h' | '?' => .error .usage
  | 'i' => (number item.optarg).map fun n => { o with interval := n }
  | 's' => (number item.optarg).map fun n => { o with packetSize := n.setWidth 32 }
  | 'l' => (number item.optarg).map fun n => { o with length := n }
  | 'L' => .ok { o with logdir := item.optarg }
  | 'o' =>
    match item.optarg with
    | none => .error .undefined
    | some optarg => (findFormat optarg o.format outputType).map fun id => { o with format := id }
  | 'P' => .ok { o with passfail := true }
  | 'v' => .ok { o with verbose := true }
  | '1' => .ok { o with up := true }
  | '2' => .ok { o with dn := true }
  | '3' => .ok { o with up := true, dn := true }
  | '4' => .ok { o with ipv4 := true }
  | '6' => .ok { o with ipv6 := true }
  | 'w' => .ok { o with filename := item.optarg }
  | '@' => .ok { o with testSelf := true }
  | 't' => .ok { o with testOwd := true }
  | 'E' => .ok { o with testEcn := true }
  | 'C' => .ok { o with testDiffserv := true }
  | 'T' => .ok { o with testAll := true }
  | 'Q' => .ok { o with testFq := true }
  | 'B' => .ok { o with testBw := true }
  | 'e' => .ok { o with ecn := true }
  | 'd' => .ok { o with diffserv := BitVec.ofInt 32 (parseIpqos item.optarg) }
  | _ => .error .usage

/-- `process_options` on the words after the program's name: the options, and the operands that
`argv` holds from the index returned on. -/
def processOptions (posixlyCorrect : Bool) (words : List Word) (o : TwdOptions) :
    Except Stop (TwdOptions × List Word) := do
  let out := getoptLong qstring longOptions posixlyCorrect words
  let o ← out.items.foldlM processOption o
  return (o, out.operands)

/-- The options as `main` hands them to `process_options`. -/
def defaultOptions : TwdOptions where
  verbose := false
  up := false
  dn := false
  dontfork := false
  passfail := false
  ecn := false
  ipv4 := false
  ipv6 := false
  server := false
  testOwd := false
  testEcn := false
  testDiffserv := false
  testAll := false
  testSelf := false
  testFq := false
  testBw := false
  debug := 0
  packetSize := 48
  length := 30000000000
  interval := 2500000
  diffserv := 0
  format := 0
  logdir := none
  filename := none

/-- The text behind `dscp:` that `print_enabled_options` prints. -/
def printedDscp (o : TwdOptions) : List UInt8 := iptos2str o.diffserv.toInt

/-! ## The reported codepoint -/

/-- The options after `--diffserv` with argument `s`. -/
def withDiffserv (o : TwdOptions) (s : Word) : Except Stop TwdOptions :=
  processOption o ⟨letter 'd', some s⟩

/-- A string that `parse_ipqos` accepts is reported as a codepoint of its value, and one that it
rejects is not reported as a codepoint. -/
structure ReportsCodepoint (o : TwdOptions) (s : Word) : Prop where
  accepted : ∀ o', withDiffserv o s = .ok o' → parseIpqos (some s) ≠ -1 →
    parseIpqos (some (printedDscp o')) = parseIpqos (some s)
  rejected : ∀ o', withDiffserv o s = .ok o' → parseIpqos (some s) = -1 →
    parseIpqos (some (printedDscp o')) = -1

/-! ## Long and short options -/

/-- The switch has a case for the value, other than those that call `usage`. -/
def hasCase (c : UInt8) : Bool := (ascii "SDFislLoPv12346w@tECTQBed").contains c

/-- In every command line, where an option is read next, the long option can be replaced by its
letter, each with its argument in any of the ways to give it: `process_options` leaves the same
options and operands, or ends in the same way. -/
def LongShortAgree (l : LongOption) : Prop :=
  ∀ posixlyCorrect pre post arg long short o,
    (readAll qstring longOptions posixlyCorrect .options pre).2 = .options →
    LongForm longOptions l arg long → ShortForm l.val arg short →
    processOptions posixlyCorrect (pre ++ long ++ post) o =
      processOptions posixlyCorrect (pre ++ short ++ post) o

/-- `QSTRING` declares the letter as `long_options` does the long option, or it does not have the
letter, and neither has the switch. -/
def TablesAgree (l : LongOption) : Prop :=
  findLetter qstring l.val = some l.hasArg ∨
    (findLetter qstring l.val = none ∧ l.hasArg = .no ∧ hasCase l.val = false)

instance (l : LongOption) : Decidable (TablesAgree l) := inferInstanceAs (Decidable (_ ∨ _))

/-- The long options whose tables do not agree. -/
example : (longOptions.filter fun l => ¬ TablesAgree l).map LongOption.name =
    [ascii "server", ascii "diffserv", ascii "test-ecn", ascii "test-self", ascii "test-fq",
      ascii "test-bw"] := by decide

/-! ## The output format -/

/-- The id of the entry of `output_type` that the argument equals. -/
def formatOf (arg : Word) : Option (BitVec 32) :=
  (outputType.find? fun e => e.desc = some arg).map OutputType.id

/-- The id for the last argument of `-o` that equals an entry, else `format`. -/
def lastFormat (format : BitVec 32) (items : List Item) : BitVec 32 :=
  (items.filterMap fun i =>
    if i.opt = letter 'o' then i.optarg.bind formatOf else none).getLast?.getD format

/-- The lookups for `-o` stay in `output_type`, and the format is the one asked for last. -/
structure LooksUpFormat (posixlyCorrect : Bool) (words : List Word) (o : TwdOptions) : Prop where
  inside : ∀ pre i post optarg o',
    (getoptLong qstring longOptions posixlyCorrect words).items = pre ++ i :: post →
    pre.foldlM processOption o = .ok o' → i.opt = letter 'o' → i.optarg = some optarg →
    ∃ format, findFormat optarg o'.format outputType = .ok format
  format : ∀ o' operands, processOptions posixlyCorrect words o = .ok (o', operands) →
    o'.format = lastFormat o.format (getoptLong qstring longOptions posixlyCorrect words).items

/-- No `-o` or `--output` is among the options up to the first that ends in `usage`. -/
def NoOutput (posixlyCorrect : Bool) (words : List Word) : Prop :=
  ∀ i ∈ (getoptLong qstring longOptions posixlyCorrect words).items.takeWhile
    fun i => hasCase i.opt, i.opt ≠ letter 'o'

instance (posixlyCorrect : Bool) (words : List Word) : Decidable (NoOutput posixlyCorrect words) :=
  inferInstanceAs (Decidable (∀ i ∈ _, _))

/-! ## The order of the options -/

/-- The last option with each letter is the same. -/
def SameLast (items items' : List Item) : Prop :=
  ∀ c, (items.filter fun i => i.opt = c).getLast? = (items'.filter fun i => i.opt = c).getLast?

end Twd
