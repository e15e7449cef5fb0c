import Mathlib

/-!
# Checking the names of command-line arguments

`arg.cc`: before an argument is registered, `argument_checker::preprocess_argument` checks its
variable, its type and its names. A name is a C string, here the list of its characters
before the terminating NUL. `drop_leading_dashes` wants one or two dashes and something
after them; `check_argument` wants letters, digits and dashes with no two dashes in a row.
The characters are compared as `char` codes with the ASCII ranges of letters and digits;
a byte above 127 (negative as a signed `char`) and a code point above 127 both fall outside
every range, so the model reads them alike.

The long name gets both checks, the short name only the first: a short name such as `-!`
passes.
-/

namespace NCMalloc.Args

/-- `types` of `arg.h`, with the values of the enumeration. -/
inductive Types
  | int | string | float | set | help
  deriving DecidableEq, Repr

/-- The value of a `types` enumerator. -/
def Types.toNat : Types → ℕ
  | .int => 0
  | .string => 1
  | .float => 2
  | .set => 3
  | .help => 4

/-- `exit_codes` of `arg.h`. -/
inductive ExitCodes
  | successParse | successHelp | errorParsingCmdline | errorBadVariable | errorBadArgument
  | errorUnkownType | errorDuplicateArgument | errorDuplicateVariable | errorUnkown
  deriving DecidableEq, Repr

/-! ## The grammar of names -/

/-- No two dashes in a row. -/
def NoDoubleDash (s : List Char) : Prop := s.IsChain fun a b => ¬(a = '-' ∧ b = '-')

instance : DecidablePred NoDoubleDash := fun s => inferInstanceAs (Decidable (List.IsChain _ s))

/-- The body of a name: a letter or digit, then letters, digits and dashes, with no two
dashes in a row. -/
def ValidBody : List Char → Prop
  | [] => False
  | c :: rest => c.isAlphanum = true ∧ (∀ x ∈ rest, x.isAlphanum = true ∨ x = '-') ∧
      NoDoubleDash (c :: rest)

instance : DecidablePred ValidBody
  | [] => isFalse id
  | _ :: _ => inferInstanceAs (Decidable (_ ∧ _ ∧ _))

/-- A well-formed argument name: one or two dashes, then a body. -/
def ValidName (name : List Char) : Prop :=
  ∃ d ∈ [1, 2], name.take d = List.replicate d '-' ∧ ValidBody (name.drop d)

instance : DecidablePred ValidName := fun _ =>
  inferInstanceAs (Decidable (∃ d ∈ [1, 2], _ ∧ _))

/-- What `drop_leading_dashes` accepts: one or two dashes, then something that is not a dash. -/
def DashPrefixed (name : List Char) : Prop :=
  ∃ d ∈ [1, 2], name.take d = List.replicate d '-' ∧ (name.drop d).head?.isSome ∧
    (name.drop d).head? ≠ some '-'

instance : DecidablePred DashPrefixed := fun _ =>
  inferInstanceAs (Decidable (∃ d ∈ [1, 2], _ ∧ _ ∧ _))

/-! ## The checks of `argument_checker` -/

/-- `argument_checker::check_var`: the variable's address lies in user space and its size
is that of an integer type. -/
def checkVar (var varSize : ℕ) : ExitCodes :=
  if var = 0 ∨ var > 2 ^ 48 - 1 then .errorBadVariable
  else if varSize ≠ 1 ∧ varSize ≠ 2 ∧ varSize ≠ 4 ∧ varSize ≠ 8 then .errorBadVariable
  else .successParse

/-- `argument_checker::check_type`, on the value passed for `type`: it guards against an
integer cast to `types`. -/
def checkType (type : ℕ) : ExitCodes :=
  if type ≠ Types.int.toNat ∧ type ≠ Types.string.toNat ∧ type ≠ Types.float.toNat ∧
      type ≠ Types.set.toNat ∧ type ≠ Types.help.toNat then .errorUnkownType
  else .successParse

/-- `argument_checker::drop_leading_dashes`: count the leading dashes; fail on none, on more
than two, or when nothing follows them. -/
def dropLeadingDashes (argument : List Char) : ExitCodes :=
  let leadingDashes := (argument.takeWhile (· == '-')).length
  if leadingDashes = 0 ∨ leadingDashes ≥ 3 ∨ argument[leadingDashes]? = none then
    .errorBadArgument
  else .successParse

/-- `argument_checker::not_letter`. -/
def notLetter (c : Char) : Bool := c.toNat < 65 || (c.toNat > 90 && c.toNat < 97) || c.toNat > 122

/-- `argument_checker::not_number`. -/
def notNumber (c : Char) : Bool := c.toNat < 48 || c.toNat > 57

/-- `argument_checker::invalid_argument_char`: neither a letter, a digit nor a dash. -/
def invalidArgumentChar (c : Char) : Bool := notLetter c && notNumber c && c != '-'

/-- The loop of `check_argument` from the state `lastWasDash`. -/
def checkArgumentLoop (lastWasDash : Bool) : List Char → ExitCodes
  | [] => .successParse
  | c :: rest =>
    if invalidArgumentChar c then .errorBadArgument
    else if lastWasDash && c == '-' then .errorBadArgument
    else checkArgumentLoop (c == '-') rest

/-- `argument_checker::check_argument`. -/
def checkArgument (argument : List Char) : ExitCodes := checkArgumentLoop false argument

/-- The checks of `preprocess_argument` run in order, each `if (res != SUCCESS_PARSE) return
res;`: the first code that is not a success is the result. -/
def firstFailure : List ExitCodes → ExitCodes
  | [] => .successParse
  | res :: rest => if res ≠ .successParse then res else firstFailure rest

/-- `argument_checker::preprocess_argument`. `long` is `none` for a null `long_argument`, and
`long_argument + 1` drops its first character. The variable is not checked for `Help`; the
long name's dashes are checked before the short name's, its body after. -/
def preprocessArgument (short : List Char) (long : Option (List Char)) (type var varSize : ℕ) :
    ExitCodes :=
  firstFailure
    ([if type ≠ Types.help.toNat then checkVar var varSize else .successParse, checkType type] ++
      long.toList.map dropLeadingDashes ++ [dropLeadingDashes short] ++
      long.toList.map fun l => checkArgument (l.drop 1))

/-- The short name `-!` passes, though `!` is no body: the short name is never given to
`check_argument`. -/
theorem preprocessArgument_short_bang :
    preprocessArgument ['-', '!'] none Types.int.toNat 4096 4 = .successParse ∧
      ¬ValidName ['-', '!'] := by
  decide

/-! ## The character classes -/

theorem isDigit_iff {c : Char} : c.isDigit = true ↔ 48 ≤ c.toNat ∧ c.toNat ≤ 57 :=
  Char.isDigit_iff_toNat

theorem isUpper_iff {c : Char} : c.isUpper = true ↔ 65 ≤ c.toNat ∧ c.toNat ≤ 90 := by
  simp [Char.isUpper, UInt32.le_iff_toNat_le, ← Char.toNat_val]

theorem isLower_iff {c : Char} : c.isLower = true ↔ 97 ≤ c.toNat ∧ c.toNat ≤ 122 := by
  simp [Char.isLower, UInt32.le_iff_toNat_le, ← Char.toNat_val]

theorem eq_dash_iff {c : Char} : c = '-' ↔ c.toNat = 45 :=
  Char.toNat_inj.symm

theorem invalidArgumentChar_eq_false_iff (c : Char) :
    invalidArgumentChar c = false ↔ c.isAlphanum = true ∨ c = '-' := by
  simp only [invalidArgumentChar, notLetter, notNumber, Char.isAlphanum, Char.isAlpha, Bool.or_eq_true,
    isDigit_iff, isUpper_iff, isLower_iff, eq_dash_iff, Bool.and_eq_false_iff, bne_eq_false_iff_eq,
    Bool.or_eq_false_iff, decide_eq_false_iff_not]
  omega

/-! ## What the checks accept -/

/-- The loop of `check_argument` accepts letters, digits and dashes with no two dashes in a
row, counting the dash before the string when `lastWasDash` is set. -/
theorem checkArgumentLoop_eq_success_iff (lastWasDash : Bool) (s : List Char) :
    checkArgumentLoop lastWasDash s = .successParse ↔
      (∀ c ∈ s, c.isAlphanum = true ∨ c = '-') ∧ (lastWasDash = true → s.head? ≠ some '-') ∧
        NoDoubleDash s := by
  induction s generalizing lastWasDash with
  | nil => simp [checkArgumentLoop, NoDoubleDash]
  | cons c rest ih =>
    rw [checkArgumentLoop]
    by_cases hc : invalidArgumentChar c = true
    · -- a character outside the classes stops the loop, and breaks the grammar
      have hc' : ¬(c.isAlphanum = true ∨ c = '-') := by
        rw [← invalidArgumentChar_eq_false_iff, hc]
        decide
      rw [if_pos hc]
      simp only [reduceCtorEq, false_iff]
      exact fun h => hc' (h.1 c List.mem_cons_self)
    · have hc' := (invalidArgumentChar_eq_false_iff c).mp (by simpa using hc)
      rw [if_neg hc]
      by_cases hd : (lastWasDash && c == '-') = true
      · -- a dash after a dash
        rw [if_pos hd]
        simp only [Bool.and_eq_true, beq_iff_eq] at hd
        simp [hd.1, hd.2]
      · rw [if_neg hd, ih]
        simp only [Bool.and_eq_true, beq_iff_eq, not_and] at hd
        simp only [NoDoubleDash, List.isChain_cons, List.mem_cons, forall_eq_or_imp, beq_iff_eq,
          List.head?_cons, ne_eq, Option.some.injEq]
        constructor
        · rintro ⟨hall, hhead, hchain⟩
          refine ⟨⟨hc', hall⟩, hd, ?_, hchain⟩
          intro y hy ⟨hcd, hyd⟩
          exact hhead hcd (by rw [← hyd]; exact hy)
        · rintro ⟨⟨-, hall⟩, -, hhead, hchain⟩
          exact ⟨hall, fun hcd hy => hhead _ hy ⟨hcd, rfl⟩, hchain⟩

theorem dropLeadingDashes_eq_success_iff (name : List Char) :
    dropLeadingDashes name = .successParse ↔ DashPrefixed name := by
  rcases name with _ | ⟨a, rest⟩
  · simp [dropLeadingDashes, DashPrefixed]
  by_cases ha : a = '-'
  · subst ha
    rcases rest with _ | ⟨b, rest⟩
    · simp [dropLeadingDashes, DashPrefixed]
    by_cases hb : b = '-'
    · subst hb
      rcases rest with _ | ⟨c, rest⟩
      · simp [dropLeadingDashes, DashPrefixed]
      by_cases hc : c = '-'
      · subst hc
        simp [dropLeadingDashes, DashPrefixed]
      · simp [dropLeadingDashes, DashPrefixed, hc]
    · simp [dropLeadingDashes, DashPrefixed, hb]
  · simp [dropLeadingDashes, DashPrefixed, ha]

theorem not_validBody_dash (rest : List Char) : ¬ValidBody ('-' :: rest) := by
  simp [ValidBody]

theorem validBody_iff_checkArgumentLoop {c : Char} (hc : c ≠ '-') (rest : List Char) (b : Bool) :
    ValidBody (c :: rest) ↔ checkArgumentLoop b (c :: rest) = .successParse := by
  rw [checkArgumentLoop_eq_success_iff, ValidBody]
  simp only [List.mem_cons, forall_eq_or_imp, List.head?_cons, ne_eq, Option.some.injEq, hc,
    or_false, not_false_eq_true, implies_true, true_and]
  tauto

/-- The long name passes both of its checks exactly when it is a well-formed name: the dashes
that `drop_leading_dashes` counts and the body that `check_argument` reads from the second
character meet. -/
theorem longName_checks_iff (name : List Char) :
    dropLeadingDashes name = .successParse ∧ checkArgument (name.drop 1) = .successParse ↔
      ValidName name := by
  rw [dropLeadingDashes_eq_success_iff, checkArgument]
  rcases name with _ | ⟨a, rest⟩
  · simp [DashPrefixed, ValidName]
  by_cases ha : a = '-'
  · subst ha
    rcases rest with _ | ⟨b, rest⟩
    · simp [DashPrefixed, ValidName, ValidBody]
    by_cases hb : b = '-'
    · subst hb
      rcases rest with _ | ⟨c, rest⟩
      · simp [DashPrefixed, ValidName, ValidBody]
      by_cases hc : c = '-'
      · subst hc
        simp [DashPrefixed, ValidName, not_validBody_dash]
      · -- two dashes: `check_argument` starts on the second one
        have hstep : checkArgumentLoop false ('-' :: c :: rest) = checkArgumentLoop true (c :: rest) := by
          rw [checkArgumentLoop, if_neg (by decide), if_neg (by decide)]
          rfl
        simp [DashPrefixed, ValidName, hc, not_validBody_dash, hstep,
          ← validBody_iff_checkArgumentLoop hc]
    · simp [DashPrefixed, ValidName, hb, ← validBody_iff_checkArgumentLoop hb]
  · simp [DashPrefixed, ValidName, ha]

theorem firstFailure_eq_success_iff (rs : List ExitCodes) :
    firstFailure rs = .successParse ↔ ∀ res ∈ rs, res = .successParse := by
  induction rs with
  | nil => simp [firstFailure]
  | cons res rest ih =>
    rw [firstFailure]
    split_ifs with h
    · simp [h]
    · simp [ih, not_not.mp h]

/-- With a valid variable and type, `preprocess_argument` succeeds exactly when the short
name has one or two leading dashes and something else after them, and the long name, if
given, is well formed: the short name's characters are never checked. -/
theorem preprocessArgument_eq_success_iff {short : List Char} {long : Option (List Char)}
    {type var varSize : ℕ} (hvar : type = Types.help.toNat ∨ checkVar var varSize = .successParse)
    (htype : checkType type = .successParse) :
    preprocessArgument short long type var varSize = .successParse ↔
      DashPrefixed short ∧ ∀ l ∈ long, ValidName l := by
  have hfirst : (if type ≠ Types.help.toNat then checkVar var varSize else .successParse) =
      .successParse := by
    rcases hvar with h | h
    · rw [if_neg (not_not.mpr h)]
    · split_ifs
      · exact h
      · rfl
  rw [preprocessArgument, firstFailure_eq_success_iff]
  rcases long with _ | l
  · simp [hfirst, htype, dropLeadingDashes_eq_success_iff]
  · simp only [Option.toList_some, List.map_cons, List.map_nil, List.cons_append, List.nil_append,
      List.mem_cons, List.not_mem_nil, forall_eq_or_imp, hfirst, htype, true_and, or_false,
      forall_eq, Option.mem_def, Option.some.injEq, forall_eq', ← longName_checks_iff,
      dropLeadingDashes_eq_success_iff]
    tauto

/-- An integer argument at a valid address, named [-v] and [--verbose]. -/
theorem preprocessArgument_eq_success_iff_verbose :
    (Types.int.toNat = Types.help.toNat ∨ checkVar 4096 4 = .successParse) ∧
      checkType Types.int.toNat = .successParse ∧
      (preprocessArgument ['-', 'v'] (some ['-', '-', 'v', 'e', 'r', 'b', 'o', 's', 'e'])
          Types.int.toNat 4096 4 = .successParse ↔
        DashPrefixed ['-', 'v'] ∧ ∀ l ∈ some ['-', '-', 'v', 'e', 'r', 'b', 'o', 's', 'e'], ValidName l) :=
  ⟨Or.inr (by decide), by decide, preprocessArgument_eq_success_iff (Or.inr (by decide)) (by decide)⟩

end NCMalloc.Args
