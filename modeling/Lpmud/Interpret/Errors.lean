import Lpmud.Lex.Characters
import Lpmud.Lib.Decimal
import Lpmud.Lib.Printf

/-!
# The texts of errors

`error` writes its text to a buffer of 2000 bytes (`emsg_buf`), a star in front of it, with
`vsprintf`, which does not know how large the buffer is. How long the text is depends on the names
and values that are printed; in most calls there are none (`fixedTexts`). In three of the calls the
format does not fit the arguments: the two errors for the types of `%=` have a percent sign in front
of a character that is no letter, and the one for nesting in `ed` lacks the number of the line.

A string that is thrown and not caught goes to `error` as its format. It is reported as it is if it
has no percent sign and is not too long. With these conditions all errors are reported
(`reported_iff`).
-/

namespace Lpmud.Errors

open List Option Printf

/-- `EMSG_SIZE`: the size of `emsg_buf`. -/
abbrev EMSG_SIZE : ℕ := 2000

/-- The star at the beginning of all system errors. -/
abbrev STAR : UInt8 := 42

/-- The bytes of a text. -/
def ascii (s : String) : Bytes :=
  s.toUTF8.data.toList

/-! ### `error` -/

/-- An argument of `error`. -/
inductive Arg where
  | int (n : BitVec 32)
  | str (s : CString)

/-- What kind of argument there is in a call. -/
inductive Kind where
  | int
  | str
  deriving DecidableEq

def Arg.kind : Arg → Kind
  | .int _ => .int
  | .str _ => .str

/-- An integer as `%d` prints it. -/
def decimal (n : BitVec 32) : Bytes :=
  if n.toInt < 0 then 45 :: Decimal.numeral n.toInt.natAbs else Decimal.numeral n.toInt.natAbs

/-- An integer as `%X` prints it. -/
def hexadecimal (n : BitVec 32) : Bytes :=
  if n = 0 then [48]
  else ((Nat.digits 16 n.toNat).map fun d ↦ UInt8.ofNat (if d < 10 then 48 + d else 55 + d)).reverse

/-- The directives of `vsprintf` that there are in the calls of `error`: `%d`, `%s`, `%c` and
`%X`. -/
def convert : UInt8 → Arg → Option Bytes
  | 100, .int n => some (decimal n)
  | 115, .str s => some s.bytes
  | 99, .int n => some [UInt8.ofNat n.toNat]
  | 88, .int n => some (hexadecimal n)
  | _, _ => none

/-- What becomes of a text: it is undefined, it is too long for a buffer, or it is in `emsg_buf`. -/
inductive Report where
  | undefined
  | overflow
  | message (emsg : Bytes)

/-- `error`, as far as the text goes. -/
def error (fmt : Bytes) (args : List Arg) : Report :=
  match vsprintf convert fmt args with
  | none => .undefined
  | some text => if 1 + text.length + 1 ≤ EMSG_SIZE then .message (STAR :: text) else .overflow

/-! ### What calls it -/

/-- A call of `error`: the format, and what arguments it has. -/
structure Site where
  fmt : String
  args : List Kind
  deriving DecidableEq

/-- The texts of the calls without directives. -/
def fixedTexts : List String :=
  ["Illegal array size.\n", "Floating point error.\n", "too many alarms in object\n",
    "Too long message!\n", "Could not find snooper to stop snoop on.\n",
    "query_idle() of non-interactive object.\n", "Bad argument1 to exec(), was an interactive\n",
    "Bad argument2 to exec(), was not an interactive\n", "Wrong number of variables in object.\n",
    "Tried to start an ed session on a non-interative player.\n",
    "Tried to start an ed session, when already active.\n", "Floating point overflow",
    "stack overflow\n", "Floating pointer overflow.", "Illegal index\n",
    "Indexing on illegal type.\n", "Too deep recursion.\n", "shadow: Already shadowing.\n",
    "shadow: Can't shadow when shadowed.\n", "The shadow must not reside inside another object.\n",
    "Can't shadow a shadow.\n", "Strange type to check_for_destr.\n", "Precondition failed!\n",
    "Postcondition failed!\n", "Invariant failed!\n", "Assertion failed!\n",
    "Attempted call of private function.\n", "Integer overflow.\n",
    "Argument out of bounds to asin()\n", "Argument out of bounds to acos()\n",
    "Argument out of bounds to acosh()\n", "Argument out of bounds to atanh()\n",
    "Argument out of bounds to fact()\n", "Bad argument 1 to set_this_player()\n",
    "Bad arguments to filter\n", "Illegal throw.\n", "Bad optional argument to query_ip_number()\n",
    "Too long string.\n", "Bad type of arg to '+'\n", "Division by zero\n", "Modulus by zero.\n",
    "Bad argument to ~\n", "Bad argument to unary minus\n", "Bad argument to ++\n",
    "++ of non-numeric argument\n", "Bad argument to --\n", "-- of non-numeric argument\n",
    "Bad argument 1 to call_other()\n", "call_other() failed\n",
    "Bad third argument to extract()\n", "Bad type of start interval to [ .. ] range.\n",
    "Bad type of end interval to [ .. ] range.\n", "Bad argument to [ .. ] range operand.\n",
    "Bad arguments to set_alarm\n", "set_alarm can only be called with a local function.",
    "Wrong argument 3 to set_alarm.\n", "Wrong argument 4 to set_alarm.\n",
    "Nonsensical screen width\n", "Bad arg to ed()\n",
    "Bad function argument to partial application '&'.\n", "Calling EMPTY closure\n",
    "ob=0 in call_var\n", "Call to function in destructed object\n",
    "Too few arguments supplied in function call\n", "Bad function argument in function call.\n",
    "Call of function failed\n", "No simul_efun object", "Bad object in &\"ob\"->fun\n",
    "Bad object type in &ob->fun\n", "Bad argument 1 to '@'\n", "Bad argument 2 to '@'\n",
    "Bad break code, this should not happend.\n", "One argument must be a pointer.\n",
    "Bad # of args to input_to()\n", "Bad arg to input_to()\n", "Bad argument 1 to present()\n",
    "Bad type number to rhs +=.\n", "Bad type to rhs +=.\n", "Bad type to lhs += \n",
    "Bad right type to -=\n", "Bad left type to -=.\n", "Bad left type to *=.\n",
    "Bad right type to *=\n", "Bad right type to &=\n", "Bad left type to &=.\n",
    "Bad left type to |=.\n", "Bad right type to |=\n", "Bad left type to ^=.\n",
    "Bad right type to ^=\n", "Bad left type to <<=.\n", "Bad right type to <<=\n",
    "Bad left type to >>=.\n", "Bad right type to >>=\n", "Division by 0\n",
    "Bad left type to /=.\n", "Bad right type to /=\n", "Bad arguments to map\n",
    "Too long evaluation. Execution aborted.\n", "Too few arguments to efun.\n",
    "Too many arguments to efun.\n", "Bad number of arguments to efun.\n",
    "Mappings not implemented", "Warning, too large mapping.\n", "Illegal use of save_object()\n",
    "Failed to save to file. Disk could be full.\n", "Failed to save object !\n",
    "Illegal use of save_map()\n", "Non-string index in mapping\n",
    "Mapping index cannot have whitespace\n", "Failed to save mapping !\n",
    "Illegal use of restore_object()\n", "Illegal use of restore_map()\n",
    "Bad second argument to parse_command()\n",
    "object used by process_string/process_value destructed\n", "No vbfc object.\n",
    "Invalid object name.\n", "Inherit chain too long.\n", "Failed to load file.\n",
    "Illegal path name.\n", "Could not read the file.\n", "No program in object !\n",
    "Error in loading object\n", "Invalid file name included.\n", "Illegal to inherit self.\n",
    "Cloning a bad object! (No Master, Master in environment or Master is clone)\n",
    "environment() off destructed object.\n", "Too long command.\n", "command_giver == 0 !\n",
    "Can't move object inside itself.\n", "Can't move an object that is shadowing.\n",
    "An object was destructed at call of init()\n",
    "The object to be moved was destructed at call of init()\n",
    "The destination to move to was destructed at call of init()\n",
    "An 'action' did something, but returned 0 or had an undefined verb.\n",
    "add_action from object that was not present.\n",
    "add_action to function in destructed object.\n", "Throw with no catch.\n",
    "Stack overflow\n"]

/-- The calls with directives. -/
def formats : List Site :=
  [⟨"Wrong permissions for opening file %s for append.\n", [.str]⟩,
    ⟨"Nesting too deep in line %d\n", []⟩,
    ⟨"Referencing undefined variable (inh == %d, var_num == %d, variables are %s).\n",
      [.int, .int, .str]⟩,
    ⟨"Index out of bounds. Vector size: %d, index: %d\n", [.int, .int]⟩,
    ⟨"Illegal to shadow 'nomask' function \"%s\".\n", [.str]⟩,
    ⟨"Function used in filter could not be found: %s\n", [.str]⟩,
    ⟨"set_bit: too big bit number: %d\n", [.int]⟩,
    ⟨"Illegal bit pattern in set_bit character %d\n", [.int]⟩,
    ⟨"clear_bit: too big bit number: %d\n", [.int]⟩,
    ⟨"Illegal bit pattern in clear_bit character %d\n", [.int]⟩,
    ⟨"Bad left type to %=.\n", []⟩,
    ⟨"Bad right type to %=\n", []⟩,
    ⟨"Function used in map could not be found: %s\n", [.str]⟩,
    ⟨"Bad type : '%%%c' in sscanf fmt string.\n", [.int]⟩,
    ⟨"Illegal to have 2 adjacent %%s in fmt string in sscanf.\n", []⟩,
    ⟨"Could not open %s for a save.\n", [.str]⟩,
    ⟨"Illegal format when restoring %s.\n", [.str]⟩,
    ⟨"Illegal format when restoring %s from %s.\n", [.str, .str]⟩,
    ⟨"Invalid object name: %s\n", [.str]⟩,
    ⟨"Strange type %d in object_present.\n", [.int]⟩,
    ⟨"Can not compile the new %s, aborting destruction of the old.\n", [.str]⟩,
    ⟨"cannot move `%s' across filesystems: Not a regular file\n", [.str]⟩,
    ⟨"cannot remove `%s'\n", [.str]⟩,
    ⟨"%s: open failed\n", [.str]⟩,
    ⟨"%s: fchmod failed\n", [.str]⟩,
    ⟨"%s: write failed\n", [.str]⟩,
    ⟨"%s: read failed\n", [.str]⟩,
    ⟨"%s: close failed", [.str]⟩,
    ⟨"%s: chmod failed\n", [.str]⟩,
    ⟨"%s: lstat failed\n", [.str]⟩,
    ⟨"`%s' and `%s' are the same file", [.str, .str]⟩,
    ⟨"%s: cannot overwrite directory", [.str]⟩,
    ⟨"%s: unknown error\n", [.str]⟩,
    ⟨"cannot move `%s' to `%s'", [.str, .str]⟩,
    ⟨"cannot remove `%s'", [.str]⟩,
    ⟨"ERROR: (s)printf(): !feature - undefined error 0x%X !\n", [.int]⟩,
    ⟨"ERROR: (s)printf(): %s\n", [.str]⟩,
    ⟨"ERROR: (s)printf(): incorrect argument type to %%%c.\n", [.int]⟩]

/-- All calls of `error` in the driver but those of `bad_arg`, `f_call_simul` and `throw_error`. -/
def sites : List Site :=
  fixedTexts.map (⟨·, []⟩) ++ formats

/-- The calls with a format that does not fit the arguments. -/
def misspelt : List Site :=
  [⟨"Nesting too deep in line %d\n", []⟩, ⟨"Bad left type to %=.\n", []⟩,
    ⟨"Bad right type to %=\n", []⟩]

/-- `type_name` of `bad_arg`. -/
def typeName : Svalue → String
  | .number _ => "Integer"
  | .string _ => "String"
  | .pointer _ _ => "Array"
  | .object _ => "Object"
  | .mapping _ _ => "Mapping"
  | .float _ => "Float"
  | .function _ => "Function"

/-- `bad_arg`, with the name of the function that the argument was for. -/
def badArg (arg : BitVec 32) (fName : CString) (sv : Svalue) : Report :=
  error (ascii "Bad argument %d to %s(), received type was %s \n")
    [.int arg, .str fName, .str (.ofBytes (ascii (typeName sv)))]

/-- The name of a function. -/
structure Identifier extends CString where
  alunum : ∀ c ∈ bytes, Lex.isAlunum c = true

/-- `f_call_simul` when there is no such function. The text is written to a buffer of 200 bytes, and
is then the format of `error`. -/
def fCallSimul (funcName : Identifier) : Report :=
  match vsprintf convert (ascii "Simulated efun %s not found") [.str funcName.toCString] with
  | none => .undefined
  | some buff => if buff.length + 1 ≤ 200 then error buff [] else .overflow

/-- `throw_error` when the value is not caught. -/
def uncaughtThrowError : Svalue → Report
  | .string s => error s.bytes []
  | _ => error (ascii "Throw with no catch.\n") []

/-! ### Errors that are raised -/

/-- A call of `error` with its arguments. -/
structure Call where
  site : Site
  mem : site ∈ sites
  args : List Arg
  kinds : args.map Arg.kind = site.args

/-- What an LPC program can raise: an error in one of these calls, or what it throws itself. -/
inductive Raised where
  | call (c : Call)
  | badArg (arg : BitVec 32) (fName : CString) (sv : Svalue)
  | callSimul (funcName : Identifier)
  | thrown (v : Svalue)

/-- What becomes of its text when it is not caught. -/
def Raised.report : Raised → Report
  | .call c => error (ascii c.site.fmt) c.args
  | .badArg arg fName sv => Errors.badArg arg fName sv
  | .callSimul funcName => fCallSimul funcName
  | .thrown v => uncaughtThrowError v

/-- **What is asked for**: the text is in the buffer, and a string that was thrown is the text. -/
def Reported (r : Raised) : Prop :=
  match r with
  | .thrown (.string s) => r.report = .message (STAR :: s.bytes)
  | _ => ∃ emsg, r.report = .message emsg

/-- How long the text of a call is. -/
def Call.length (c : Call) : ℕ :=
  textLength (ascii c.site.fmt) +
    argsLength convert ((directives (ascii c.site.fmt)).getD []) c.args

/-- **When it is**: the format of the call fits the arguments, and the text and the arguments are
not too long; the name of a function is not too long; a string that is thrown is not too long and
has no percent sign. -/
def Raised.Short : Raised → Prop
  | .call c => c.site ∉ misspelt ∧ c.length ≤ 1998
  | .badArg arg fName sv =>
    (decimal arg).length + fName.bytes.length + (ascii (typeName sv)).length ≤ 1957
  | .callSimul funcName => funcName.bytes.length ≤ 174
  | .thrown (.string s) => PERCENT ∉ s.bytes ∧ s.bytes.length ≤ 1998
  | .thrown _ => True

/-! ### The formats -/

/-- Whether a directive takes an argument of some kind. -/
def accepts : UInt8 → Kind → Bool
  | 100, .int => true
  | 115, .str => true
  | 99, .int => true
  | 88, .int => true
  | _, _ => false

theorem isSome_convert {letter : UInt8} {a : Arg} (h : accepts letter a.kind = true) :
    (convert letter a).isSome = true := by
  cases a with
  | int n =>
    rw [Arg.kind, accepts.eq_def] at h
    split at h <;> first | rfl | simp_all
  | str s =>
    rw [Arg.kind, accepts.eq_def] at h
    split at h <;> first | rfl | simp_all

/-- The directives of a format take the arguments it is called with. -/
def matchKinds : Bytes → List Kind → Bool
  | [], [] => true
  | letter :: letters, kind :: kinds => accepts letter kind && matchKinds letters kinds
  | _, _ => false

theorem forall₂_of_matchKinds : ∀ {letters : Bytes} {args : List Arg},
    matchKinds letters (args.map Arg.kind) = true →
      List.Forall₂ (fun letter a ↦ (convert letter a).isSome = true) letters args
  | [], [], _ => .nil
  | letter :: letters, a :: args, h => by
    rw [map_cons, matchKinds, Bool.and_eq_true] at h
    exact .cons (isSome_convert h.1) (forall₂_of_matchKinds h.2)
  | [], _ :: _, h => nomatch h
  | _ :: _, [], h => nomatch h

/-- The format of a call fits its arguments. -/
def Site.fits (site : Site) : Bool :=
  (directives (ascii site.fmt)).any fun letters ↦ matchKinds letters site.args

theorem ascii_ofList (l : List Char) :
    ascii (String.ofList l) = l.flatMap String.utf8EncodeChar := by
  simp [ascii, String.toUTF8, List.utf8Encode]

theorem all_fits_cons {l : List Char} {args : List Kind} {rest : List Site}
    (h : ((directives (l.flatMap String.utf8EncodeChar)).any fun letters ↦
      matchKinds letters args) = true)
    (hrest : rest.all (fun site ↦ site.fits || site ∈ misspelt) = true) :
    ((⟨String.ofList l, args⟩ : Site) :: rest).all
      (fun site ↦ site.fits || site ∈ misspelt) = true := by
  rw [all_cons, hrest, Site.fits, ascii_ofList, h]
  rfl

theorem all_fits_cons_of_mem {site : Site} {rest : List Site} (h : site ∈ misspelt)
    (hrest : rest.all (fun site ↦ site.fits || site ∈ misspelt) = true) :
    (site :: rest).all (fun site ↦ site.fits || site ∈ misspelt) = true := by
  rw [all_cons, hrest, decide_eq_true h, Bool.or_true]
  rfl

theorem fits_fixedTexts :
    (fixedTexts.map (⟨·, []⟩)).all (fun site ↦ site.fits || site ∈ misspelt) = true := by
  rw [fixedTexts]
  repeat refine all_fits_cons (by decide) ?_
  rfl

theorem fits_formats : formats.all (fun site ↦ site.fits || site ∈ misspelt) = true := by
  rw [formats]
  repeat first
    | refine all_fits_cons (by decide) ?_
    | refine all_fits_cons_of_mem (by decide) ?_
  rfl

theorem fits_sites : sites.all (fun site ↦ site.fits || site ∈ misspelt) = true := by
  rw [sites, all_append, fits_fixedTexts, fits_formats]
  rfl

theorem undefined_misspelt {site : Site} (h : site ∈ misspelt) :
    site.args = [] ∧ vsprintf convert (ascii site.fmt) ([] : List Arg) = none := by
  obtain rfl | rfl | rfl : site = _ ∨ site = _ ∨ site = _ := by
    simpa only [misspelt, mem_cons, not_mem_nil, or_false] using h
  all_goals exact ⟨rfl, by decide⟩

/-! ### When they are reported -/

theorem error_message_iff {fmt : Bytes} {args : List Arg} {emsg : Bytes} :
    error fmt args = .message emsg ↔
      ∃ text, vsprintf convert fmt args = some text ∧ text.length ≤ 1998 ∧ emsg = STAR :: text := by
  rw [error]
  cases vsprintf convert fmt args with
  | none =>
    refine iff_of_false (fun h ↦ nomatch h) ?_
    rintro ⟨_, h, -⟩
    exact nomatch h
  | some text =>
    have hsize : 1 + text.length + 1 ≤ EMSG_SIZE ↔ text.length ≤ 1998 := by
      show 1 + text.length + 1 ≤ 2000 ↔ text.length ≤ 1998
      omega
    dsimp only
    constructor
    · intro h
      split at h
      next hle => exact ⟨text, rfl, hsize.1 hle, (Report.message.inj h).symm⟩
      next => exact nomatch h
    · rintro ⟨text', h, hle, rfl⟩
      obtain rfl := some.inj h
      exact if_pos (hsize.2 hle)

theorem error_message_iff_of_fits {fmt letters : Bytes} {args : List Arg}
    (hletters : directives fmt = some letters)
    (hkinds : matchKinds letters (args.map Arg.kind) = true) :
    (∃ emsg, error fmt args = .message emsg) ↔
      textLength fmt + argsLength convert letters args ≤ 1998 := by
  obtain ⟨text, htext, hlen⟩ := length_vsprintf hletters (forall₂_of_matchKinds hkinds)
  rw [← hlen]
  constructor
  · rintro ⟨emsg, h⟩
    obtain ⟨text', htext', hle, -⟩ := error_message_iff.1 h
    obtain rfl := some.inj (htext.symm.trans htext')
    exact hle
  · exact fun hle ↦ ⟨_, error_message_iff.2 ⟨text, htext, hle, rfl⟩⟩

theorem reported_call_iff (c : Call) :
    Reported (.call c) ↔ c.site ∉ misspelt ∧ c.length ≤ 1998 := by
  show (∃ emsg, error (ascii c.site.fmt) c.args = .message emsg) ↔ _
  obtain hmem | hmem := em (c.site ∈ misspelt)
  · obtain ⟨hargs, hnone⟩ := undefined_misspelt hmem
    have hnil : c.args = [] := map_eq_nil_iff.1 (c.kinds.trans hargs)
    refine iff_of_false ?_ fun h ↦ h.1 hmem
    rintro ⟨emsg, h⟩
    obtain ⟨text, htext, -⟩ := error_message_iff.1 h
    rw [hnil, hnone] at htext
    exact nomatch htext
  · have hfits := all_eq_true.1 fits_sites c.site c.mem
    rw [Bool.or_eq_true, decide_eq_true_eq, or_iff_left hmem, Site.fits] at hfits
    cases hletters : directives (ascii c.site.fmt) with
    | none =>
      rw [hletters] at hfits
      exact nomatch hfits
    | some letters =>
      rw [hletters, any_some, ← c.kinds] at hfits
      rw [error_message_iff_of_fits hletters hfits, Call.length, hletters, getD_some]
      exact (and_iff_right hmem).symm

theorem bytes_typeName (sv : Svalue) :
    (CString.ofBytes (ascii (typeName sv))).bytes = ascii (typeName sv) := by
  have hall : ∀ name ∈ ["Integer", "String", "Array", "Object", "Mapping", "Float", "Function"],
      (CString.ofBytes (ascii name)).bytes = ascii name := by
    decide
  refine hall _ ?_
  cases sv <;> simp [typeName]

theorem reported_badArg_iff (arg : BitVec 32) (fName : CString) (sv : Svalue) :
    Reported (.badArg arg fName sv) ↔ (Raised.badArg arg fName sv).Short := by
  show (∃ emsg, badArg arg fName sv = .message emsg) ↔ _
  have hletters : directives (ascii "Bad argument %d to %s(), received type was %s \n") =
      some [100, 115, 115] := by
    decide
  have htext : textLength (ascii "Bad argument %d to %s(), received type was %s \n") = 41 := by
    decide
  have hargs : argsLength convert [100, 115, 115]
      [.int arg, .str fName, .str (.ofBytes (ascii (typeName sv)))] =
        (decimal arg).length + (fName.bytes.length + ((ascii (typeName sv)).length + 0)) :=
    congrArg (fun name ↦ (decimal arg).length + (fName.bytes.length + (List.length name + 0)))
      (bytes_typeName sv)
  rw [badArg, error_message_iff_of_fits hletters rfl, hargs, htext, Raised.Short]
  omega

theorem percent_not_mem_of_alunum {s : Bytes} (h : ∀ c ∈ s, Lex.isAlunum c = true) :
    PERCENT ∉ s :=
  fun hmem ↦ absurd (h PERCENT hmem) (by decide)

theorem vsprintf_simul (name : CString) :
    vsprintf convert (ascii "Simulated efun %s not found") [.str name] =
      some (ascii "Simulated efun " ++ (name.bytes ++ ascii " not found")) := by
  have hfmt : ascii "Simulated efun %s not found" =
      ascii "Simulated efun " ++ PERCENT :: 115 :: ascii " not found" := by
    decide
  rw [hfmt, vsprintf_append_of_not_mem (by decide), vsprintf_directive (by decide),
    vsprintf_of_not_mem (by decide)]
  rfl

theorem reported_callSimul_iff (funcName : Identifier) :
    Reported (.callSimul funcName) ↔ funcName.bytes.length ≤ 174 := by
  show (∃ emsg, fCallSimul funcName = .message emsg) ↔ _
  have hfront : (ascii "Simulated efun ").length = 15 ∧ PERCENT ∉ ascii "Simulated efun " := by
    decide
  have hbehind : (ascii " not found").length = 10 ∧ PERCENT ∉ ascii " not found" := by
    decide
  -- There is no percent sign in what `error` gets as its format.
  have hnone : PERCENT ∉ ascii "Simulated efun " ++ (funcName.bytes ++ ascii " not found") := by
    rw [mem_append, mem_append, not_or, not_or]
    exact ⟨hfront.2, percent_not_mem_of_alunum funcName.alunum, hbehind.2⟩
  have hlen : (ascii "Simulated efun " ++ (funcName.bytes ++ ascii " not found")).length =
      funcName.bytes.length + 25 := by
    rw [length_append, length_append, hfront.1, hbehind.1]
    omega
  rw [fCallSimul, vsprintf_simul]
  dsimp only
  generalize ascii "Simulated efun " ++ (funcName.bytes ++ ascii " not found") = buff at hnone hlen
  split
  next hle =>
    refine iff_of_true ⟨_, error_message_iff.2 ⟨buff, vsprintf_of_not_mem hnone [], ?_, rfl⟩⟩ ?_
    all_goals omega
  next hlt => exact iff_of_false (fun ⟨_, h⟩ ↦ nomatch h) (by omega)

theorem reported_thrown_iff (v : Svalue) : Reported (.thrown v) ↔ (Raised.thrown v).Short := by
  have hfixed : directives (ascii "Throw with no catch.\n") = some [] := by
    decide
  have hlen : textLength (ascii "Throw with no catch.\n") = 21 := by
    decide
  have hmessage : ∃ emsg, error (ascii "Throw with no catch.\n") [] = .message emsg := by
    refine (error_message_iff_of_fits hfixed rfl).2 ?_
    rw [hlen]
    decide
  cases v with
  | string s =>
    show error s.bytes [] = .message (STAR :: s.bytes) ↔ PERCENT ∉ s.bytes ∧ s.bytes.length ≤ 1998
    rw [error_message_iff]
    constructor
    · rintro ⟨text, htext, hle, heq⟩
      obtain rfl := (List.cons.inj heq).2
      exact ⟨vsprintf_nil_eq_self_iff.1 htext, hle⟩
    · rintro ⟨hnone, hle⟩
      exact ⟨s.bytes, vsprintf_nil_eq_self_iff.2 hnone, hle, rfl⟩
  | _ => exact iff_of_true hmessage trivial

/-- **Which errors are reported**: those with a format that fits the arguments, and with a text
that fits the buffer; a string that is thrown must have no percent sign. -/
theorem reported_iff (r : Raised) : Reported r ↔ r.Short := by
  cases r with
  | call c => exact reported_call_iff c
  | badArg arg fName sv => exact reported_badArg_iff arg fName sv
  | callSimul funcName => exact reported_callSimul_iff funcName
  | thrown v => exact reported_thrown_iff v

/-- Two percent signs that are thrown are reported as one. -/
theorem not_reported : ¬∀ r : Raised, Reported r := by
  intro hall
  have h : uncaughtThrowError (.string ⟨[PERCENT, PERCENT], by decide⟩) =
      .message [STAR, PERCENT, PERCENT] := hall (.thrown (.string ⟨[PERCENT, PERCENT], by decide⟩))
  have hone : uncaughtThrowError (.string ⟨[PERCENT, PERCENT], by decide⟩) =
      .message [STAR, PERCENT] := rfl
  exact absurd (Report.message.inj (h.symm.trans hone)) (by decide)

end Lpmud.Errors
