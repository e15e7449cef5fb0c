import NCMalloc.Util.ArgChecker
import NCMalloc.Lib.Reach

/-!
# Parsing the command line

`arg.cc`: `argument_parser` keeps a table of `argument_info` entries, each registered by
`add_argument` after `preprocess_argument` and `verify_unique`, and `parse_arguments` walks
`argv` with it. A token names an entry; an `Int`, `String` or `Float` entry takes the next
token as its value, which is written to the entry's variable, a `Set` entry sets its
variable's first byte. The exit functions leave the program: a run ends with the code they
pass to `exit`. Memory is bytes; `strtol`, `strtof` and `strtod` are parameters, each giving
its value and how many characters it consumed.
-/

namespace NCMalloc.Args

instance : Inhabited Types := ⟨.int⟩

/-- How a call leaves the program: `exit(code)` after printing `message`, `DIE`'s `exit(-1)`,
or `abort()`. -/
inductive Exit
  | exit (code : ExitCodes) (message : String)
  | die
  | abort
  deriving DecidableEq, Repr

/-- The fields of `argument_info` the parser reads. `argument_found` is kept by the parser. -/
structure ArgumentInfo where
  shortArgument : List Char
  longArgument : Option (List Char)
  required : Bool
  type : Types
  var : ℕ
  varSize : ℕ
  deriving DecidableEq, Repr, Inhabited

/-- `argument_parser`: its entries in the order they were added, `nreq_remaining`, and the
entries whose `argument_found` is set. -/
structure ArgumentParser where
  arguments : List ArgumentInfo
  nreqRemaining : ℕ
  argumentFound : Finset ℕ

/-! ## Registering arguments -/

/-- `argument_parser::verify_unique`: the variable and both names against every entry. -/
def verifyUnique (short : List Char) (long : Option (List Char)) (var : ℕ) :
    List ArgumentInfo → ExitCodes
  | [] => .successParse
  | it :: rest =>
    if it.var = var then .errorDuplicateVariable
    else if it.shortArgument = short then .errorDuplicateArgument
    else if it.longArgument = some short then .errorDuplicateArgument
    else if long.isSome ∧ some it.shortArgument = long then .errorDuplicateArgument
    else if long.isSome ∧ it.longArgument.isSome ∧ it.longArgument = long then
      .errorDuplicateArgument
    else verifyUnique short long var rest

/-- `argument_parser::add_argument`: `exit_error` with the code of a failed check. -/
def addArgument (p : ArgumentParser) (a : ArgumentInfo) : Except Exit ArgumentParser :=
  let res := preprocessArgument a.shortArgument a.longArgument a.type.toNat a.var a.varSize
  if res ≠ .successParse then .error (.exit res "Error Processing Arguments: %s ->\n\n")
  else
    let res := verifyUnique a.shortArgument a.longArgument a.var p.arguments
    if res ≠ .successParse then .error (.exit res "Error Processing Arguments: %s ->\n\n")
    else .ok { p with
      nreqRemaining := p.nreqRemaining + if a.required then 1 else 0
      arguments := p.arguments ++ [a] }

/-- `argument_parser::argument_parser()`, `verbose` the address of the global `verbose`. -/
def argumentParser (verbose : ℕ) : Except Exit ArgumentParser := do
  let p ← addArgument ⟨[], 0, ∅⟩ ⟨['-', 'h'], some ['-', '-', 'h', 'e', 'l', 'p'], false, .help, 0, 0⟩
  addArgument p ⟨['-', 'v'], some ['-', '-', 'v', 'e', 'r', 'b', 'o', 's', 'e'], false, .int,
    verbose, 4⟩

/-- One `add_argument` call that returned. -/
def AddStep (p p' : ArgumentParser) : Prop := ∃ a, addArgument p a = .ok p'

/-- The parsers the constructor and a sequence of `add_argument` calls that returned build. -/
def Built (verbose : ℕ) (p : ArgumentParser) : Prop :=
  ∃ p₀, argumentParser verbose = .ok p₀ ∧ StateMachine.Reachable AddStep p₀ p

/-! ## Parsing -/

/-- `strtol(s, &endptr, 10)`, `strtof(s, &endptr)` and `strtod(s, &endptr)`: the bits of the
value and how far `endptr` moved. -/
structure Strto where
  strtol : List Char → BitVec 64 × ℕ
  strtof : List Char → BitVec 32 × ℕ
  strtod : List Char → BitVec 64 × ℕ

/-- `memcpy(dst, &x, size)`: the low `size` bytes of `x`, little-endian. -/
def memcpy {w : ℕ} (mem : ℕ → BitVec 8) (dst : ℕ) (x : BitVec w) (size : ℕ) : ℕ → BitVec 8 :=
  fun addr => if dst ≤ addr ∧ addr < dst + size then (x >>> (8 * (addr - dst))).setWidth 8 else mem addr

/-- The state of the loop of `parse_arguments`: the parser, memory, and the entry
`cur_argument` whose value the next token is when `expecting_value` is set. -/
structure ParseState where
  parser : ArgumentParser
  mem : ℕ → BitVec 8
  expecting : Option ℕ

section Parse

variable (lib : Strto)

/-- The `expecting_value` branch: `cmdline[i]`, the string `tok` at address `ptr`, is the value
of `a`. -/
def parseValue (a : ArgumentInfo) (ptr : BitVec 64) (tok : List Char) (mem : ℕ → BitVec 8) :
    Except Exit (ℕ → BitVec 8) :=
  match a.type with
  | .int =>
    let r := lib.strtol tok
    if r.2 = 0 then .error (.exit .errorParsingCmdline "Int type had not parseable int value\n")
    else .ok (memcpy mem a.var r.1 a.varSize)
  | .string => .ok (memcpy mem a.var ptr 8)
  | .float =>
    -- the size is checked before the value is parsed
    if a.varSize = 4 then
      let r := lib.strtof tok
      if r.2 = 0 then
        .error (.exit .errorParsingCmdline "Float type had not parseable float value\n")
      else .ok (memcpy mem a.var r.1 a.varSize)
    else if a.varSize = 8 then
      let r := lib.strtod tok
      if r.2 = 0 then
        .error (.exit .errorParsingCmdline "Float type had not parseable float value\n")
      else .ok (memcpy mem a.var r.1 a.varSize)
    else .error (.exit .errorParsingCmdline "Float type of unknown size\n")
  | .set | .help => .error .abort

/-- `argument_parser::find_ai_ptr`: the first entry with the token as its short or long name. -/
def findAiPtr (arguments : List ArgumentInfo) (tok : List Char) : Option ℕ :=
  arguments.findIdx? fun a => a.shortArgument == tok || a.longArgument == some tok

/-- One token of the loop of `parse_arguments`. -/
def parseStep (st : ParseState) (tok : BitVec 64 × List Char) : Except Exit ParseState :=
  match st.expecting with
  | some j => do
    let mem ← parseValue lib (st.parser.arguments.getD j default) tok.1 tok.2 st.mem
    pure { st with mem, expecting := none }
  | none =>
    match findAiPtr st.parser.arguments tok.2 with
    | none => .error (.exit .errorParsingCmdline "Error argument \"%s\" unknown\n")
    | some j =>
      let a := st.parser.arguments.getD j default
      if j ∈ st.parser.argumentFound then
        .error (.exit .errorParsingCmdline "Error argument \"%s\" specified twice\n")
      else if a.var = 0 ∧ a.type ≠ .help then
        .error (.exit .errorParsingCmdline
          "Error argument \"%s\" assosiated with invalid variable\n")
      else
        let parser := { st.parser with
          argumentFound := insert j st.parser.argumentFound
          nreqRemaining := st.parser.nreqRemaining - if a.required then 1 else 0 }
        match a.type with
        | .int | .string | .float => .ok { st with parser, expecting := some j }
        | .set => .ok { st with parser, mem := Function.update st.mem a.var 1#8 }
        | .help => .error (.exit .successParse "")

/-- The checks after the loop: a value still expected, a required argument missing. -/
def finishParse (st : ParseState) : Except Exit (ArgumentParser × (ℕ → BitVec 8)) :=
  if st.expecting.isSome then
    .error (.exit .errorParsingCmdline "Error argument for \"%s\" not provided\n")
  else if st.parser.nreqRemaining ≠ 0 then
    .error (.exit .errorParsingCmdline "\nError missing required argument\n\n")
  else .ok (st.parser, st.mem)

/-- `argument_parser::parse_arguments(argc, cmdline)`, `cmdline` the `argc` strings with their
addresses: the parser and memory on a normal return. -/
def parseArguments (p : ArgumentParser) (mem : ℕ → BitVec 8)
    (cmdline : List (BitVec 64 × List Char)) : Except Exit (ArgumentParser × (ℕ → BitVec 8)) :=
  if cmdline.length < 1 then .error .die
  else do
    let st ← (cmdline.drop 1).foldlM (parseStep lib) ⟨p, mem, none⟩
    finishParse st

end Parse

/-! ## The table of a built parser -/

/-- Token `tok` is a name of `a`. -/
def ArgumentInfo.HasName (a : ArgumentInfo) (tok : List Char) : Prop :=
  a.shortArgument = tok ∨ a.longArgument = some tok

/-- Token `tok` is a name of entry `j`. -/
def Names (arguments : List ArgumentInfo) (j : ℕ) (tok : List Char) : Prop :=
  ∃ a, arguments[j]? = some a ∧ a.HasName tok

/-- No token names two entries. -/
def UniqueNames (arguments : List ArgumentInfo) : Prop :=
  ∀ tok j j', Names arguments j tok → Names arguments j' tok → j = j'

/-- The required entries outside `used`: what `nreq_remaining` counts. -/
def reqLeft (arguments : List ArgumentInfo) (used : Finset ℕ) : ℕ :=
  ((Finset.range arguments.length).filter
    fun j => (arguments.getD j default).required = true ∧ j ∉ used).card

theorem verifyUnique_eq_success_iff (short : List Char) (long : Option (List Char)) (var : ℕ)
    (arguments : List ArgumentInfo) :
    verifyUnique short long var arguments = .successParse ↔
      ∀ it ∈ arguments, it.var ≠ var ∧ ∀ tok, it.HasName tok → ¬(short = tok ∨ long = some tok) := by
  induction arguments with
  | nil => simp [verifyUnique]
  | cons it rest ih =>
    rw [verifyUnique, List.forall_mem_cons, ← ih]
    -- the four comparisons of names are the four ways two entries can share a name
    have hnames : (∀ tok, it.HasName tok → ¬(short = tok ∨ long = some tok)) ↔
        it.shortArgument ≠ short ∧ it.longArgument ≠ some short ∧
          ¬(long.isSome ∧ some it.shortArgument = long) ∧
          ¬(long.isSome ∧ it.longArgument.isSome ∧ it.longArgument = long) := by
      cases long <;> cases hl : it.longArgument <;> simp [ArgumentInfo.HasName, hl] <;> grind
    rw [hnames]
    split_ifs <;> simp_all

theorem names_append {arguments : List ArgumentInfo} {a : ArgumentInfo} {j : ℕ} {tok : List Char} :
    Names (arguments ++ [a]) j tok ↔
      Names arguments j tok ∨ (j = arguments.length ∧ a.HasName tok) := by
  rcases Nat.lt_or_ge j arguments.length with hj | hj
  · have hne : j ≠ arguments.length := hj.ne
    simp only [Names, List.getElem?_append_left hj, hne, false_and, or_false]
  · rw [Names, Names, List.getElem?_append_right hj, List.getElem?_eq_none hj]
    rcases Nat.lt_or_ge (j - arguments.length) 1 with h1 | h1
    · have hj' : j = arguments.length := by omega
      simp [hj']
    · have hj' : j ≠ arguments.length := by omega
      have hnone : [a][j - arguments.length]? = none :=
        List.getElem?_eq_none (by rw [List.length_singleton]; omega)
      simp [hnone, hj']

theorem uniqueNames_append {arguments : List ArgumentInfo} {a : ArgumentInfo}
    (hU : UniqueNames arguments)
    (hv : verifyUnique a.shortArgument a.longArgument a.var arguments = .successParse) :
    UniqueNames (arguments ++ [a]) := by
  have hfresh := (verifyUnique_eq_success_iff _ _ _ _).mp hv
  have hnot : ∀ j tok, Names arguments j tok → ¬a.HasName tok := by
    rintro j tok ⟨it, hit, hname⟩ ha
    exact (hfresh it (List.mem_of_getElem? hit)).2 tok hname ha
  intro tok j j' hj hj'
  rcases names_append.mp hj with hj | ⟨rfl, ha⟩ <;>
    rcases names_append.mp hj' with hj' | ⟨rfl, ha'⟩
  · exact hU tok j j' hj hj'
  · exact absurd ha' (hnot j tok hj)
  · exact absurd ha (hnot j' tok hj')
  · rfl

theorem reqLeft_append_empty (arguments : List ArgumentInfo) (a : ArgumentInfo) :
    reqLeft (arguments ++ [a]) ∅ = reqLeft arguments ∅ + if a.required then 1 else 0 := by
  have hget : ∀ j < arguments.length, (arguments ++ [a]).getD j default = arguments.getD j default :=
    fun j hj => by rw [List.getD_eq_getElem?_getD, List.getD_eq_getElem?_getD,
      List.getElem?_append_left hj]
  have hlast : (arguments ++ [a]).getD arguments.length default = a := by
    rw [List.getD_eq_getElem?_getD, List.getElem?_concat_length, Option.getD_some]
  rw [reqLeft, reqLeft, List.length_append, List.length_singleton, Finset.range_add_one,
    Finset.filter_insert, Finset.filter_congr fun j hj => by rw [hget j (Finset.mem_range.mp hj)]]
  simp only [hlast, Finset.notMem_empty, not_false_eq_true, and_true]
  split_ifs with hr
  · rw [Finset.card_insert_of_notMem (fun h => by simp at h)]
  · rfl

/-- What a parser that the constructor and `add_argument` built keeps: no name shared, every
variable but `Help`'s non-null, nothing found yet, and the required entries counted. -/
structure ParserInv (p : ArgumentParser) : Prop where
  unique : UniqueNames p.arguments
  var_ne_zero : ∀ a ∈ p.arguments, a.type ≠ .help → a.var ≠ 0
  found : p.argumentFound = ∅
  nreq : p.nreqRemaining = reqLeft p.arguments ∅

theorem Types.toNat_eq_help_iff (t : Types) : t.toNat = Types.help.toNat ↔ t = .help := by
  cases t <;> decide

theorem var_ne_zero_of_preprocess {a : ArgumentInfo}
    (h : preprocessArgument a.shortArgument a.longArgument a.type.toNat a.var a.varSize =
      .successParse) (ht : a.type ≠ .help) : a.var ≠ 0 := by
  rw [preprocessArgument, firstFailure_eq_success_iff] at h
  have hfirst := h _ (List.mem_append_left _ (List.mem_append_left _
    (List.mem_append_left _ List.mem_cons_self)))
  rw [if_pos (mt (Types.toNat_eq_help_iff _).mp ht)] at hfirst
  intro h0
  simp [checkVar, h0] at hfirst

theorem addArgument_eq_ok_iff {p p' : ArgumentParser} {a : ArgumentInfo} :
    addArgument p a = .ok p' ↔
      preprocessArgument a.shortArgument a.longArgument a.type.toNat a.var a.varSize =
          .successParse ∧
        verifyUnique a.shortArgument a.longArgument a.var p.arguments = .successParse ∧
        p' = { p with
          nreqRemaining := p.nreqRemaining + if a.required then 1 else 0
          arguments := p.arguments ++ [a] } := by
  unfold addArgument
  dsimp only
  by_cases hpre : preprocessArgument a.shortArgument a.longArgument a.type.toNat a.var a.varSize =
      .successParse
  · rw [if_neg (not_not.mpr hpre)]
    by_cases hver : verifyUnique a.shortArgument a.longArgument a.var p.arguments = .successParse
    · rw [if_neg (not_not.mpr hver)]
      exact ⟨fun h => ⟨hpre, hver, by cases h; rfl⟩, fun ⟨_, _, h⟩ => h ▸ rfl⟩
    · rw [if_pos hver]
      exact ⟨fun h => (by cases h), fun ⟨_, h, _⟩ => absurd h hver⟩
  · rw [if_pos hpre]
    exact ⟨fun h => (by cases h), fun ⟨h, _⟩ => absurd h hpre⟩

theorem ParserInv.of_addArgument {p p' : ArgumentParser} (hp : ParserInv p) {a : ArgumentInfo}
    (h : addArgument p a = .ok p') : ParserInv p' := by
  obtain ⟨hpre, hver, rfl⟩ := addArgument_eq_ok_iff.mp h
  refine ⟨uniqueNames_append hp.unique hver, ?_, hp.found, ?_⟩
  · intro b hb ht
    rcases List.mem_append.mp hb with hb | hb
    · exact hp.var_ne_zero b hb ht
    · rw [List.mem_singleton.mp hb] at ht ⊢
      exact var_ne_zero_of_preprocess hpre ht
  · show p.nreqRemaining + _ = _
    rw [reqLeft_append_empty, hp.nreq]

theorem ParserInv.of_built {verbose : ℕ} {p : ArgumentParser} (hp : Built verbose p) :
    ParserInv p := by
  obtain ⟨p₀, h₀, hreach⟩ := hp
  refine StateMachine.Reachable.invariant ?_ (fun _ _ hq ⟨a, ha⟩ => hq.of_addArgument ha) hreach
  have hempty : ParserInv { arguments := [], nreqRemaining := 0, argumentFound := ∅ } :=
    { unique := fun _ _ _ ⟨_, h, _⟩ => by simp at h
      var_ne_zero := by simp
      found := rfl
      nreq := rfl }
  unfold argumentParser at h₀
  cases h₁ : addArgument ⟨[], 0, ∅⟩ ⟨['-', 'h'], some ['-', '-', 'h', 'e', 'l', 'p'], false, .help, 0, 0⟩ with
  | error e => rw [h₁] at h₀; cases h₀
  | ok p₁ =>
    rw [h₁] at h₀
    exact (hempty.of_addArgument h₁).of_addArgument h₀

/-! ## The command lines the parser accepts -/

section Grammar

variable (lib : Strto)

/-- A value token that entry `a` accepts: one `strtol` consumes something of for an `Int`, any
token for a `String`, for a `Float` of 4 or 8 bytes one that `strtof` or `strtod` consumes
something of. -/
def ValueOk (a : ArgumentInfo) (tok : List Char) : Prop :=
  match a.type with
  | .int => (lib.strtol tok).2 ≠ 0
  | .string => True
  | .float => (a.varSize = 4 ∧ (lib.strtof tok).2 ≠ 0) ∨ (a.varSize = 8 ∧ (lib.strtod tok).2 ≠ 0)
  | .set | .help => False

/-- `tokens` splits into consecutive items, each naming an entry outside `used` that no item
before it named: a `Set` entry's name alone, or the name of an entry that takes a value
followed by a value it accepts; when the tokens run out every required entry has been named.
`items` are the entries named, with their value tokens. -/
inductive Splits (arguments : List ArgumentInfo) :
    Finset ℕ → List (BitVec 64 × List Char) → List (ℕ × Option (BitVec 64 × List Char)) → Prop
  | nil {used : Finset ℕ} (hreq : ∀ j a, arguments[j]? = some a → a.required = true → j ∈ used) :
      Splits arguments used [] []
  | set {used : Finset ℕ} {j : ℕ} {a : ArgumentInfo} {tok : BitVec 64 × List Char} {rest items}
      (ha : arguments[j]? = some a) (hname : a.HasName tok.2) (hj : j ∉ used)
      (hset : a.type = .set) (hrest : Splits arguments (insert j used) rest items) :
      Splits arguments used (tok :: rest) ((j, none) :: items)
  | value {used : Finset ℕ} {j : ℕ} {a : ArgumentInfo} {tok v : BitVec 64 × List Char} {rest items}
      (ha : arguments[j]? = some a) (hname : a.HasName tok.2) (hj : j ∉ used)
      (hv : ValueOk lib a v.2) (hrest : Splits arguments (insert j used) rest items) :
      Splits arguments used (tok :: v :: rest) ((j, some v) :: items)

/-- What an item writes to its entry's variable: the value's bytes, the value token's address
for a `String`, and 1 in the first byte for a `Set`. -/
def itemWrite (a : ArgumentInfo) :
    Option (BitVec 64 × List Char) → (ℕ → BitVec 8) → ℕ → BitVec 8
  | none, mem => Function.update mem a.var 1#8
  | some v, mem =>
    match a.type with
    | .int => memcpy mem a.var (lib.strtol v.2).1 a.varSize
    | .string => memcpy mem a.var v.1 8
    | .float =>
      if a.varSize = 4 then memcpy mem a.var (lib.strtof v.2).1 a.varSize
      else memcpy mem a.var (lib.strtod v.2).1 a.varSize
    | .set | .help => mem

/-- The items' writes, in order. -/
def applyItems (arguments : List ArgumentInfo) (items : List (ℕ × Option (BitVec 64 × List Char)))
    (mem : ℕ → BitVec 8) : ℕ → BitVec 8 :=
  items.foldl (fun m it => itemWrite lib (arguments.getD it.1 default) it.2 m) mem

end Grammar

/-! ## One token -/

theorem bind_eq_ok_iff {ε α β : Type} {x : Except ε α} {f : α → Except ε β} {b : β} :
    x >>= f = .ok b ↔ ∃ a, x = .ok a ∧ f a = .ok b := by
  cases x <;> simp [bind, Except.bind]

theorem ok_bind {ε α β : Type} (a : α) (f : α → Except ε β) : (Except.ok a >>= f) = f a := rfl

section Step

variable (lib : Strto) {table : List ArgumentInfo} {used : Finset ℕ} {st : ParseState}

theorem parseValue_eq_ok_iff (a : ArgumentInfo) (ptr : BitVec 64) (tok : List Char)
    (mem m : ℕ → BitVec 8) :
    parseValue lib a ptr tok mem = .ok m ↔
      ValueOk lib a tok ∧ m = itemWrite lib a (some (ptr, tok)) mem := by
  unfold parseValue ValueOk itemWrite
  cases a.type with
  | int => by_cases h : (lib.strtol tok).2 = 0 <;> simp [h, eq_comm]
  | string => simp [eq_comm]
  | float =>
    by_cases h4 : a.varSize = 4
    · by_cases h : (lib.strtof tok).2 = 0 <;> simp [h, h4, eq_comm]
    · by_cases h8 : a.varSize = 8
      · by_cases h : (lib.strtod tok).2 = 0 <;> simp [h, h8, eq_comm]
      · simp [h4, h8]
  | set => simp
  | help => simp

theorem names_of_findAiPtr {arguments : List ArgumentInfo} {tok : List Char} {j : ℕ}
    (h : findAiPtr arguments tok = some j) : ∃ a, arguments[j]? = some a ∧ a.HasName tok := by
  obtain ⟨hj, hp, -⟩ := List.findIdx?_eq_some_iff_getElem.mp h
  refine ⟨arguments[j], List.getElem?_eq_getElem hj, ?_⟩
  simpa [ArgumentInfo.HasName] using hp

theorem findAiPtr_of_names {arguments : List ArgumentInfo} (hU : UniqueNames arguments)
    {tok : List Char} {j : ℕ} {a : ArgumentInfo} (ha : arguments[j]? = some a)
    (hname : a.HasName tok) : findAiPtr arguments tok = some j := by
  obtain ⟨hj, rfl⟩ := List.getElem?_eq_some_iff.mp ha
  refine List.findIdx?_eq_some_iff_getElem.mpr ⟨hj, by simpa [ArgumentInfo.HasName] using hname, ?_⟩
  intro k hk hp
  have hk' : Names arguments k tok :=
    ⟨_, List.getElem?_eq_getElem (hk.trans hj), by simpa [ArgumentInfo.HasName] using hp⟩
  exact hk.ne (hU tok k j hk' ⟨_, ha, hname⟩)

theorem reqLeft_insert {j : ℕ} (hj : j < table.length) (hju : j ∉ used) :
    reqLeft table (insert j used) =
      reqLeft table used - if (table.getD j default).required then 1 else 0 := by
  have herase : (Finset.range table.length).filter
      (fun i => (table.getD i default).required = true ∧ i ∉ insert j used) =
      ((Finset.range table.length).filter
        fun i => (table.getD i default).required = true ∧ i ∉ used).erase j := by
    ext i
    simp only [Finset.mem_filter, Finset.mem_insert, Finset.mem_erase]
    tauto
  rw [reqLeft, reqLeft, herase]
  split_ifs with hr
  · rw [Finset.card_erase_of_mem (Finset.mem_filter.mpr ⟨Finset.mem_range.mpr hj, hr, hju⟩)]
  · rw [Finset.erase_eq_of_notMem fun h => hr (Finset.mem_filter.mp h).2.1, Nat.sub_zero]

theorem reqLeft_eq_zero_iff :
    reqLeft table used = 0 ↔ ∀ j a, table[j]? = some a → a.required = true → j ∈ used := by
  rw [reqLeft, Finset.card_eq_zero, Finset.filter_eq_empty_iff]
  constructor
  · intro h j a ha hr
    obtain ⟨hj, rfl⟩ := List.getElem?_eq_some_iff.mp ha
    by_contra hju
    refine h (Finset.mem_range.mpr hj) ⟨?_, hju⟩
    rwa [List.getD_eq_getElem?_getD, List.getElem?_eq_getElem hj, Option.getD_some]
  · rintro h j hj ⟨hr, hju⟩
    have hj' := Finset.mem_range.mp hj
    refine hju (h j _ (List.getElem?_eq_getElem hj') ?_)
    rwa [List.getD_eq_getElem?_getD, List.getElem?_eq_getElem hj', Option.getD_some] at hr

theorem getD_of_getElem? {j : ℕ} {a : ArgumentInfo} (ha : table[j]? = some a) :
    table.getD j default = a := by
  rw [List.getD_eq_getElem?_getD, ha, Option.getD_some]

/-- The loop's state follows the table: its entries, the entries found, and the count of
required ones not found. -/
structure Tracks (table : List ArgumentInfo) (used : Finset ℕ) (st : ParseState) : Prop where
  arguments : st.parser.arguments = table
  found : st.parser.argumentFound = used
  nreq : st.parser.nreqRemaining = reqLeft table used

theorem Tracks.reset (ht : Tracks table used st) (mem : ℕ → BitVec 8) (e : Option ℕ) :
    Tracks table used { st with mem, expecting := e } := ⟨ht.arguments, ht.found, ht.nreq⟩

/-- The parser after entry `j` is found. -/
def foundParser (table : List ArgumentInfo) (used : Finset ℕ) (j : ℕ) : ArgumentParser :=
  ⟨table, reqLeft table (insert j used), insert j used⟩

theorem tracks_foundParser (table : List ArgumentInfo) (used : Finset ℕ) (j : ℕ)
    (mem : ℕ → BitVec 8) (e : Option ℕ) :
    Tracks table (insert j used) ⟨foundParser table used j, mem, e⟩ := ⟨rfl, rfl, rfl⟩

/-- A name of an entry not yet found, with a variable unless it is `Help`: the entry is marked
found; a `Set` entry writes its byte, an `Int`, `String` or `Float` entry waits for its value,
and `Help` leaves through `exit_usage_success`. -/
theorem parseStep_name (ht : Tracks table used st) (hnone : st.expecting = none)
    (tok : BitVec 64 × List Char) {j : ℕ} {a : ArgumentInfo}
    (hf : findAiPtr table tok.2 = some j) (ha : table[j]? = some a) (hj : j ∉ used)
    (hv : ¬(a.var = 0 ∧ a.type ≠ .help)) :
    parseStep lib st tok =
      match a.type with
      | .int | .string | .float => .ok ⟨foundParser table used j, st.mem, some j⟩
      | .set => .ok ⟨foundParser table used j, Function.update st.mem a.var 1#8, none⟩
      | .help => .error (.exit .successParse "") := by
  obtain ⟨⟨args, nreq, found⟩, mem, e⟩ := st
  obtain ⟨h1, h2, h3⟩ := ht
  dsimp only at h1 h2 h3 hnone
  subst h1 h2 h3 hnone
  have hget : args.getD j default = a := getD_of_getElem? ha
  have hnreq : reqLeft args found - (if a.required then 1 else 0) = reqLeft args (insert j found) := by
    rw [← hget]
    exact (reqLeft_insert (List.getElem?_eq_some_iff.mp ha).1 hj).symm
  simp only [parseStep, hf, hget, hj, if_false, hv, hnreq]
  cases a.type <;> rfl

theorem parseStep_value (ht : Tracks table used st) {j : ℕ} (hexp : st.expecting = some j)
    {a : ArgumentInfo} (ha : table[j]? = some a) {v : BitVec 64 × List Char}
    (hv : ValueOk lib a v.2) :
    parseStep lib st v = .ok { st with mem := itemWrite lib a (some v) st.mem, expecting := none } := by
  have hval : parseValue lib (st.parser.arguments.getD j default) v.1 v.2 st.mem =
      .ok (itemWrite lib a (some v) st.mem) := by
    rw [ht.arguments, getD_of_getElem? ha]
    exact (parseValue_eq_ok_iff lib _ _ _ _ _).mpr ⟨hv, rfl⟩
  simp only [parseStep, hexp, hval]
  rfl

theorem parseStep_name_eq_ok (ht : Tracks table used st) (hnone : st.expecting = none)
    {tok : BitVec 64 × List Char} {st' : ParseState} (h : parseStep lib st tok = .ok st') :
    ∃ j a, findAiPtr table tok.2 = some j ∧ table[j]? = some a ∧ j ∉ used ∧
      ¬(a.var = 0 ∧ a.type ≠ .help) := by
  obtain ⟨⟨args, nreq, found⟩, mem, e⟩ := st
  obtain ⟨h1, h2, h3⟩ := ht
  dsimp only at h1 h2 h3 hnone
  subst h1 h2 h3 hnone
  simp only [parseStep] at h
  cases hf : findAiPtr args tok.2 with
  | none => rw [hf] at h; cases h
  | some j =>
    rw [hf] at h
    obtain ⟨a, ha, -⟩ := names_of_findAiPtr hf
    simp only [getD_of_getElem? ha] at h
    split_ifs at h with hj hv
    all_goals exact ⟨j, a, rfl, ha, hj, hv⟩

end Step

/-! ## The loop -/

section Loop

variable (lib : Strto) {table : List ArgumentInfo}

theorem applyItems_cons (it : ℕ × Option (BitVec 64 × List Char))
    (items : List (ℕ × Option (BitVec 64 × List Char))) (mem : ℕ → BitVec 8) :
    applyItems lib table (it :: items) mem =
      applyItems lib table items (itemWrite lib (table.getD it.1 default) it.2 mem) := rfl

/-- What the loop accepts splits into items, and memory ends with their writes: by induction on
the tokens, from a state that waits for a name or for entry `j`'s value. -/
theorem run_sound :
    ∀ (toks : List (BitVec 64 × List Char)) {st : ParseState} {used : Finset ℕ}
      {r : ArgumentParser × (ℕ → BitVec 8)},
      Tracks table used st → (toks.foldlM (parseStep lib) st >>= finishParse) = .ok r →
      (st.expecting = none →
        ∃ items, Splits lib table used toks items ∧ r.2 = applyItems lib table items st.mem) ∧
      (∀ j, st.expecting = some j →
        ∃ v rest items, toks = v :: rest ∧ ValueOk lib (table.getD j default) v.2 ∧
          Splits lib table used rest items ∧
          r.2 = applyItems lib table items (itemWrite lib (table.getD j default) (some v) st.mem))
  | [], st, used, r, ht, hres => by
    rw [List.foldlM_nil, pure_bind, finishParse] at hres
    split_ifs at hres with he hn
    refine ⟨fun _ => ⟨[], .nil (reqLeft_eq_zero_iff.mp (ht.nreq ▸ not_not.mp hn)), ?_⟩, ?_⟩
    · cases hres
      rfl
    · -- a value still expected ends the run with an error
      intro j hj
      rw [hj] at he
      exact absurd rfl he
  | tok :: rest, st, used, r, ht, hres => by
    rw [List.foldlM_cons, bind_assoc] at hres
    obtain ⟨st', hstep, hres'⟩ := bind_eq_ok_iff.mp hres
    constructor
    · intro hnone
      obtain ⟨j, a, hf, ha, hj, hv⟩ := parseStep_name_eq_ok lib ht hnone hstep
      have hname : a.HasName tok.2 := by
        obtain ⟨a', ha', hn⟩ := names_of_findAiPtr hf
        rwa [Option.some.inj (ha.symm.trans ha')]
      have hget := getD_of_getElem? ha
      rw [parseStep_name lib ht hnone tok hf ha hj hv] at hstep
      have hwait : st' = ⟨foundParser table used j, st.mem, some j⟩ →
          ∃ items, Splits lib table used (tok :: rest) items ∧
            r.2 = applyItems lib table items st.mem := by
        rintro rfl
        obtain ⟨v, rest', items, rfl, hok, hsplit, hmem⟩ :=
          (run_sound rest (tracks_foundParser table used j _ _) hres').2 j rfl
        rw [hget] at hok hmem
        exact ⟨(j, some v) :: items, .value ha hname hj hok hsplit, by rw [hmem, applyItems_cons, hget]⟩
      cases hty : a.type <;> simp only [hty] at hstep
      case int | string | float => exact hwait (Except.ok.inj hstep).symm
      case set =>
        cases hstep
        obtain ⟨items, hsplit, hmem⟩ := (run_sound rest (tracks_foundParser table used j _ _) hres').1 rfl
        exact ⟨(j, none) :: items, .set ha hname hj hty hsplit, by rw [hmem, applyItems_cons, hget]; rfl⟩
      case help => cases hstep
    · intro j hexp
      rw [parseStep, hexp] at hstep
      obtain ⟨m, hval, hst'⟩ := bind_eq_ok_iff.mp hstep
      rw [ht.arguments] at hval
      obtain ⟨hok, rfl⟩ := (parseValue_eq_ok_iff lib _ _ _ _ _).mp hval
      cases hst'
      obtain ⟨items, hsplit, hmem⟩ := (run_sound rest (ht.reset _ none) hres').1 rfl
      exact ⟨tok, rest, items, rfl, hok, hsplit, hmem⟩

/-- Every command line the grammar splits is accepted, with the items' writes: by induction on
the split, each item one or two steps of the loop. -/
theorem run_complete (hU : UniqueNames table) (hvar : ∀ a ∈ table, a.type ≠ .help → a.var ≠ 0)
    {used : Finset ℕ} {toks : List (BitVec 64 × List Char)}
    {items : List (ℕ × Option (BitVec 64 × List Char))} (hs : Splits lib table used toks items) :
    ∀ {st : ParseState}, Tracks table used st → st.expecting = none →
      ∃ p', (toks.foldlM (parseStep lib) st >>= finishParse) =
        .ok (p', applyItems lib table items st.mem) := by
  induction hs with
  | nil hreq =>
    intro st ht hnone
    have hzero : st.parser.nreqRemaining = 0 := by
      rw [ht.nreq]
      exact reqLeft_eq_zero_iff.mpr hreq
    refine ⟨st.parser, ?_⟩
    simp only [List.foldlM_nil, pure_bind, finishParse, hnone, hzero]
    rfl
  | @set used j a tok rest items ha hname hj hset hrest ih =>
    intro st ht hnone
    have hv : ¬(a.var = 0 ∧ a.type ≠ .help) := fun h => hvar a (List.mem_of_getElem? ha) h.2 h.1
    rw [List.foldlM_cons, bind_assoc,
      parseStep_name lib ht hnone tok (findAiPtr_of_names hU ha hname) ha hj hv]
    simp only [hset]
    obtain ⟨p', hp'⟩ := ih (tracks_foundParser table used j _ _) rfl
    refine ⟨p', ?_⟩
    rw [ok_bind, hp', applyItems_cons, getD_of_getElem? ha]
    rfl
  | @value used j a tok v rest items ha hname hj hv hrest ih =>
    intro st ht hnone
    have hv' : ¬(a.var = 0 ∧ a.type ≠ .help) := fun h => hvar a (List.mem_of_getElem? ha) h.2 h.1
    have hname_step : parseStep lib st tok = .ok ⟨foundParser table used j, st.mem, some j⟩ := by
      rw [parseStep_name lib ht hnone tok (findAiPtr_of_names hU ha hname) ha hj hv']
      unfold ValueOk at hv
      cases hty : a.type <;> simp only [hty] at hv ⊢
    have hvalue_step := parseStep_value lib (tracks_foundParser table used j st.mem (some j)) rfl ha hv
    obtain ⟨p', hp'⟩ := ih (tracks_foundParser table used j _ _) rfl
    refine ⟨p', ?_⟩
    rw [List.foldlM_cons, bind_assoc, hname_step, ok_bind, List.foldlM_cons, bind_assoc, hvalue_step,
      ok_bind, hp', applyItems_cons, getD_of_getElem? ha]

end Loop

/-! ## What the items write -/

/-- The bytes of `a`'s variable an item writes: `var_size` of them for an `Int` or a `Float`,
the 8 of a pointer for a `String`, the first for a `Set`. -/
def ArgumentInfo.width (a : ArgumentInfo) : ℕ :=
  match a.type with
  | .set => 1
  | .string => 8
  | .int | .float | .help => a.varSize

/-- Byte `addr` belongs to `a`'s variable. -/
def ArgumentInfo.Covers (a : ArgumentInfo) (addr : ℕ) : Prop := a.var ≤ addr ∧ addr < a.var + a.width

/-- An item of entry `a`: a `Set` entry alone, an `Int`, `String` or `Float` entry with a value. -/
def ItemFits (a : ArgumentInfo) : Option (BitVec 64 × List Char) → Prop
  | none => a.type = .set
  | some _ => a.type = .int ∨ a.type = .string ∨ a.type = .float

theorem memcpy_of_not_mem {w : ℕ} {mem : ℕ → BitVec 8} {dst size addr : ℕ} (x : BitVec w)
    (h : ¬(dst ≤ addr ∧ addr < dst + size)) : memcpy mem dst x size addr = mem addr := if_neg h

theorem memcpy_of_mem {w : ℕ} {mem : ℕ → BitVec 8} {dst size addr : ℕ} (x : BitVec w)
    (h : dst ≤ addr ∧ addr < dst + size) :
    memcpy mem dst x size addr = (x >>> (8 * (addr - dst))).setWidth 8 := if_pos h

section Items

variable (lib : Strto) {a : ArgumentInfo} {o : Option (BitVec 64 × List Char)} {addr : ℕ}

theorem itemFits_of_valueOk {tok : List Char} (hv : ValueOk lib a tok) (v : BitVec 64 × List Char) :
    ItemFits a (some v) := by
  unfold ValueOk at hv
  cases hty : a.type <;> simp only [hty] at hv <;> simp [ItemFits, hty]

theorem itemWrite_outside (hfit : ItemFits a o) (h : ¬a.Covers addr) (mem : ℕ → BitVec 8) :
    itemWrite lib a o mem addr = mem addr := by
  unfold ArgumentInfo.Covers ArgumentInfo.width at h
  cases o with
  | none =>
    simp only [ItemFits] at hfit
    simp only [hfit] at h
    exact Function.update_of_ne (by omega) _ _
  | some v =>
    unfold itemWrite
    rcases hfit with hty | hty | hty <;> simp only [hty] at h ⊢
    · exact memcpy_of_not_mem _ h
    · exact memcpy_of_not_mem _ h
    · split_ifs <;> exact memcpy_of_not_mem _ h

theorem itemWrite_inside (hfit : ItemFits a o) (h : a.Covers addr) (mem mem' : ℕ → BitVec 8) :
    itemWrite lib a o mem addr = itemWrite lib a o mem' addr := by
  unfold ArgumentInfo.Covers ArgumentInfo.width at h
  cases o with
  | none =>
    simp only [ItemFits] at hfit
    simp only [hfit] at h
    have haddr : addr = a.var := by omega
    simp only [itemWrite, haddr, Function.update_self]
  | some v =>
    unfold itemWrite
    rcases hfit with hty | hty | hty <;> simp only [hty] at h ⊢
    · rw [memcpy_of_mem _ h, memcpy_of_mem _ h]
    · rw [memcpy_of_mem _ h, memcpy_of_mem _ h]
    · split_ifs <;> rw [memcpy_of_mem _ h, memcpy_of_mem _ h]

variable {table : List ArgumentInfo} {items : List (ℕ × Option (BitVec 64 × List Char))}

theorem applyItems_outside (hfit : ∀ it ∈ items, ItemFits (table.getD it.1 default) it.2)
    (h : ∀ it ∈ items, ¬(table.getD it.1 default).Covers addr) (mem : ℕ → BitVec 8) :
    applyItems lib table items mem addr = mem addr := by
  induction items generalizing mem with
  | nil => rfl
  | cons it rest ih =>
    rw [applyItems_cons, ih (fun it' h' => hfit it' (.tail _ h')) (fun it' h' => h it' (.tail _ h')),
      itemWrite_outside lib (hfit it List.mem_cons_self) (h it List.mem_cons_self)]

/-- With the items' entries distinct and their variables apart, a byte of one item's variable
ends with that item's write: by induction on the items, no later item touching it. -/
theorem applyItems_inside (hfit : ∀ it ∈ items, ItemFits (table.getD it.1 default) it.2)
    (hnodup : (items.map Prod.fst).Nodup)
    (hdisj : ∀ it ∈ items, ∀ it' ∈ items, it.1 ≠ it'.1 →
      ¬((table.getD it.1 default).Covers addr ∧ (table.getD it'.1 default).Covers addr))
    {j : ℕ} {o : Option (BitVec 64 × List Char)} (hit : (j, o) ∈ items)
    (hcov : (table.getD j default).Covers addr) (mem : ℕ → BitVec 8) :
    applyItems lib table items mem addr = itemWrite lib (table.getD j default) o mem addr := by
  induction items generalizing mem with
  | nil => cases hit
  | cons it rest ih =>
    obtain ⟨hnotin, hnodup'⟩ := List.nodup_cons.mp (List.map_cons ▸ hnodup)
    rw [applyItems_cons]
    rcases List.mem_cons.mp hit with rfl | hrest
    · -- the item's own write, which no later item covers
      refine applyItems_outside lib (fun it' h' => hfit it' (.tail _ h')) (fun it' h' hc => ?_) _
      have hne : j ≠ it'.1 := fun he => hnotin (List.mem_map.mpr ⟨it', h', he.symm⟩)
      exact hdisj _ List.mem_cons_self it' (.tail _ h') hne ⟨hcov, hc⟩
    · rw [ih (fun it' h' => hfit it' (.tail _ h')) hnodup'
        (fun it h it' h' => hdisj it (.tail _ h) it' (.tail _ h')) hrest,
        itemWrite_inside lib (hfit _ (.tail _ hrest)) hcov]

theorem Splits.items_fresh {used : Finset ℕ} {toks : List (BitVec 64 × List Char)}
    (hs : Splits lib table used toks items) :
    (items.map Prod.fst).Nodup ∧
      ∀ it ∈ items, it.1 ∉ used ∧ ∃ a, table[it.1]? = some a ∧ ItemFits a it.2 := by
  induction hs with
  | nil => exact ⟨List.nodup_nil, fun _ h => by cases h⟩
  | @set used j a tok rest items ha hname hj hset hrest ih =>
    refine ⟨?_, ?_⟩
    · refine List.nodup_cons.mpr ⟨fun hmem => ?_, ih.1⟩
      obtain ⟨it, hit, he⟩ := List.mem_map.mp hmem
      exact (ih.2 it hit).1 (he ▸ Finset.mem_insert_self j used)
    · rintro it (_ | ⟨_, hit⟩)
      · exact ⟨hj, a, ha, hset⟩
      · obtain ⟨hu, hrest'⟩ := ih.2 it hit
        exact ⟨fun h => hu (Finset.mem_insert_of_mem h), hrest'⟩
  | @value used j a tok v rest items ha hname hj hv hrest ih =>
    refine ⟨?_, ?_⟩
    · refine List.nodup_cons.mpr ⟨fun hmem => ?_, ih.1⟩
      obtain ⟨it, hit, he⟩ := List.mem_map.mp hmem
      exact (ih.2 it hit).1 (he ▸ Finset.mem_insert_self j used)
    · rintro it (_ | ⟨_, hit⟩)
      · exact ⟨hj, a, ha, itemFits_of_valueOk lib hv v⟩
      · obtain ⟨hu, hrest'⟩ := ih.2 it hit
        exact ⟨fun h => hu (Finset.mem_insert_of_mem h), hrest'⟩

end Items

/-! ## Parsing a command line -/

theorem parseArguments_cons (lib : Strto) (p : ArgumentParser) (mem : ℕ → BitVec 8)
    (prog : BitVec 64 × List Char) (argv : List (BitVec 64 × List Char)) :
    parseArguments lib p mem (prog :: argv) =
      (argv.foldlM (parseStep lib) ⟨p, mem, none⟩ >>= finishParse) := by
  rw [parseArguments, if_neg (by simp)]
  rfl

theorem ParserInv.tracks {p : ArgumentParser} (hp : ParserInv p) (mem : ℕ → BitVec 8) :
    Tracks p.arguments ∅ ⟨p, mem, none⟩ := ⟨rfl, hp.found, hp.nreq⟩

/-- `parse_arguments` on a parser that the constructor and `add_argument` built returns
normally exactly on the command lines whose arguments after `argv[0]` split into items (names
of distinct entries, each `Set` entry alone and every other followed by a value it accepts,
every required entry named, no `Help`), and memory then holds the items' writes in order. -/
theorem parseArguments_iff_splits (lib : Strto) {verbose : ℕ} {p : ArgumentParser}
    (hp : Built verbose p) (mem : ℕ → BitVec 8) (prog : BitVec 64 × List Char)
    (argv : List (BitVec 64 × List Char)) :
    (∀ r, parseArguments lib p mem (prog :: argv) = .ok r →
      ∃ items, Splits lib p.arguments ∅ argv items ∧ r.2 = applyItems lib p.arguments items mem) ∧
    (∀ items, Splits lib p.arguments ∅ argv items →
      ∃ p', parseArguments lib p mem (prog :: argv) = .ok (p', applyItems lib p.arguments items mem)) := by
  have hinv := ParserInv.of_built hp
  rw [parseArguments_cons]
  constructor
  · intro r hres
    exact (run_sound lib argv (hinv.tracks mem) hres).1 rfl
  · intro items hs
    exact run_complete lib hinv.unique hinv.var_ne_zero hs (hinv.tracks mem) rfl

/-- A C library whose `strtol` reads an unsigned decimal numeral and whose `strtof` and
`strtod` read nothing. -/
def Strto.decimal : Strto where
  strtol tok :=
    let ds := tok.takeWhile Char.isDigit
    (BitVec.ofNat 64 (ds.foldl (fun n c => 10 * n + (c.toNat - '0'.toNat)) 0), ds.length)
  strtof _ := (0#32, 0)
  strtod _ := (0#64, 0)

/-- The parser `argument_parser()` builds with `verbose` at address 8192. -/
def defaultParser : ArgumentParser :=
  ⟨[⟨['-', 'h'], some ['-', '-', 'h', 'e', 'l', 'p'], false, .help, 0, 0⟩,
    ⟨['-', 'v'], some ['-', '-', 'v', 'e', 'r', 'b', 'o', 's', 'e'], false, .int, 8192, 4⟩], 0, ∅⟩

theorem built_defaultParser : Built 8192 defaultParser := ⟨_, rfl, .refl⟩

/-- The arguments `-v 3` of a command line `p -v 3`, the strings at addresses 24 and 32. -/
def verboseArgv : List (BitVec 64 × List Char) := [(24#64, ['-', 'v']), (32#64, ['3'])]

theorem parseArguments_iff_splits_default :
    Built 8192 defaultParser ∧
      (∀ r, parseArguments Strto.decimal defaultParser (fun _ => 0#8) ((16#64, ['p']) :: verboseArgv) = .ok r →
        ∃ items, Splits Strto.decimal defaultParser.arguments ∅ verboseArgv items ∧
          r.2 = applyItems Strto.decimal defaultParser.arguments items (fun _ => 0#8)) ∧
      (∀ items, Splits Strto.decimal defaultParser.arguments ∅ verboseArgv items →
        ∃ p', parseArguments Strto.decimal defaultParser (fun _ => 0#8) ((16#64, ['p']) :: verboseArgv) =
          .ok (p', applyItems Strto.decimal defaultParser.arguments items (fun _ => 0#8))) :=
  ⟨built_defaultParser, parseArguments_iff_splits Strto.decimal built_defaultParser (fun _ => 0#8)
    (16#64, ['p']) verboseArgv⟩

/-- With the variables of distinct entries apart, a normal return of `parse_arguments` on a
built parser leaves every byte of the variable of an entry the command line names with that
item's write (the value's bytes, the value string's address, or 1 for a `Set`) and every other
byte as it was. -/
theorem parseArguments_values (lib : Strto) {verbose : ℕ} {p : ArgumentParser}
    (hp : Built verbose p)
    (hdisj : ∀ (j j' : ℕ) (a a' : ArgumentInfo), j ≠ j' → p.arguments[j]? = some a → p.arguments[j']? = some a' →
      ∀ addr, ¬(a.Covers addr ∧ a'.Covers addr))
    {mem : ℕ → BitVec 8} {prog : BitVec 64 × List Char} {argv : List (BitVec 64 × List Char)}
    {r : ArgumentParser × (ℕ → BitVec 8)} (hres : parseArguments lib p mem (prog :: argv) = .ok r) :
    ∃ items, Splits lib p.arguments ∅ argv items ∧ ∀ addr,
      (∀ j o a, (j, o) ∈ items → p.arguments[j]? = some a → a.Covers addr →
        r.2 addr = itemWrite lib a o mem addr) ∧
      ((∀ j o a, (j, o) ∈ items → p.arguments[j]? = some a → ¬a.Covers addr) →
        r.2 addr = mem addr) := by
  obtain ⟨items, hs, hmem⟩ := (parseArguments_iff_splits lib hp mem prog argv).1 r hres
  obtain ⟨hnodup, hfresh⟩ := hs.items_fresh lib
  have hfit : ∀ it ∈ items, ItemFits (p.arguments.getD it.1 default) it.2 := by
    intro it hit
    obtain ⟨-, a, ha, hf⟩ := hfresh it hit
    rwa [getD_of_getElem? ha]
  refine ⟨items, hs, fun addr => ⟨?_, ?_⟩⟩
  · intro j o a hit ha hcov
    rw [hmem, ← getD_of_getElem? ha]
    refine applyItems_inside lib hfit hnodup ?_ hit ((getD_of_getElem? ha).symm ▸ hcov) mem
    intro it hi it' hi' hne
    obtain ⟨-, b, hb, -⟩ := hfresh it hi
    obtain ⟨-, b', hb', -⟩ := hfresh it' hi'
    rw [getD_of_getElem? hb, getD_of_getElem? hb']
    exact hdisj _ _ _ _ hne hb hb' addr
  · intro hout
    rw [hmem]
    refine applyItems_outside lib hfit (fun it hi => ?_) mem
    obtain ⟨-, b, hb, -⟩ := hfresh it hi
    rw [getD_of_getElem? hb]
    exact hout it.1 it.2 b hi hb

theorem defaultParser_apart : ∀ (j j' : ℕ) (a a' : ArgumentInfo), j ≠ j' → defaultParser.arguments[j]? = some a →
    defaultParser.arguments[j']? = some a' → ∀ addr, ¬(a.Covers addr ∧ a'.Covers addr) := by
  intro j j' a a' hne ha ha' addr ⟨h, h'⟩
  obtain ⟨hj, rfl⟩ := List.getElem?_eq_some_iff.mp ha
  obtain ⟨hj', rfl⟩ := List.getElem?_eq_some_iff.mp ha'
  simp only [defaultParser, List.length_cons, List.length_nil] at hj hj'
  interval_cases j <;> interval_cases j' <;>
    simp_all [defaultParser, ArgumentInfo.Covers, ArgumentInfo.width]

theorem parseArguments_values_verbose :
    parseArguments Strto.decimal defaultParser (fun _ => 0#8) ((16#64, ['p']) :: verboseArgv) =
        .ok (⟨defaultParser.arguments, 0, insert 1 ∅⟩,
          memcpy (fun _ => 0#8) 8192 (Strto.decimal.strtol ['3']).1 4) ∧
      ∃ items, Splits Strto.decimal defaultParser.arguments ∅ verboseArgv items ∧ ∀ addr,
        (∀ j o a, (j, o) ∈ items → defaultParser.arguments[j]? = some a → a.Covers addr →
          memcpy (fun _ => 0#8) 8192 (Strto.decimal.strtol ['3']).1 4 addr =
            itemWrite Strto.decimal a o (fun _ => 0#8) addr) ∧
        ((∀ j o a, (j, o) ∈ items → defaultParser.arguments[j]? = some a → ¬a.Covers addr) →
          memcpy (fun _ => 0#8) 8192 (Strto.decimal.strtol ['3']).1 4 addr = 0#8) :=
by
  refine ⟨?hres, parseArguments_values Strto.decimal built_defaultParser defaultParser_apart ?hres⟩
  rfl

end NCMalloc.Args
