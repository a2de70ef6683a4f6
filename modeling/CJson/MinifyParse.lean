import CJson.Document
import CJson.Minify

/-!
# Minified documents

Parsing a minified document should give the same tree.  It does if the two
lexers agree well enough: running side by side, the minifier must not drop a
byte while the parser is inside a string literal.  Where they disagree the other
way round, the minifier only keeps whitespace that it could have dropped.

They come apart at a literal that ends in an escaped backslash.  The minifier
takes its closing quote for an escaped one, stays in the string, and treats the
next literal as text between tokens.
-/

namespace CJson

open CString MinifyMode

/-- Where the parser is: between tokens, in a string literal, or in it behind a
backslash that introduces an escape. -/
inductive LiteralMode where
  | outside
  | inside
  | escaped
  deriving DecidableEq

namespace LiteralMode

def step : LiteralMode -> UInt8 -> LiteralMode
  | outside, byte => if byte = 0x22 then inside else outside
  | inside, byte => if byte = 0x22 then outside else if byte = 0x5C then escaped else inside
  | escaped, _ => inside

end LiteralMode

/-- No byte of a string literal is dropped, when both lexers run over a text. -/
def keepsLiterals : LiteralMode -> MinifyMode -> Bytes -> Bool
  | _, _, [] => true
  | literal, mode, byte :: rest =>
      (literal == .outside || mode.keeps byte) && keepsLiterals (literal.step byte) (mode.step byte) rest

/-- The modes the minifier can be in between two tokens.  After a literal that ends in
an escaped backslash it takes what follows for the rest of a string. -/
def Between (mode : MinifyMode) : Prop := mode = .outside ∨ mode = .string false

section Pieces

variable {mode : MinifyMode}

theorem keepsLiterals_outside_cons {byte : UInt8} (rest : Bytes) (notQuote : byte ≠ 0x22) :
    keepsLiterals .outside mode (byte :: rest) = keepsLiterals .outside (mode.step byte) rest := by
  rw [keepsLiterals, LiteralMode.step, if_neg notQuote]
  rfl

/-- A byte between tokens that is neither a quote, a backslash, a slash nor whitespace
passes in either mode. -/
def Passes (byte : UInt8) : Prop :=
  byte ≠ 0x22 ∧ byte ≠ 0x5C ∧ byte ≠ 0x2F ∧ isMinifiedBlank byte = false

instance : DecidablePred Passes := fun byte =>
  inferInstanceAs (Decidable (byte ≠ 0x22 ∧ byte ≠ 0x5C ∧ byte ≠ 0x2F ∧ isMinifiedBlank byte = false))

theorem passes_of_all {text : Bytes} (all : text.all (fun byte => decide (Passes byte)) = true) :
    ∀ byte ∈ text, Passes byte :=
  fun byte inside => of_decide_eq_true (List.all_eq_true.mp all byte inside)

theorem Between.step_of_passes (between : Between mode) {byte : UInt8} (passes : Passes byte) :
    mode.keeps byte = true ∧ mode.step byte = mode := by
  rcases passes with ⟨notQuote, notBackslash, notSlash, notBlank⟩
  rcases between with rfl | rfl
  · exact ⟨by simp [keeps, notBlank, notSlash],
      by rw [MinifyMode.step, if_neg notSlash, if_neg notQuote]⟩
  · exact ⟨rfl, by rw [MinifyMode.step, if_neg notQuote, beq_eq_false_iff_ne.mpr notBackslash]⟩

/-- A text of such bytes is kept as it is. -/
theorem Between.passes (between : Between mode) {text : Bytes} (all : ∀ byte ∈ text, Passes byte) :
    mode.emit text = text ∧ mode.run text = mode ∧
      ∀ rest, keepsLiterals .outside mode (text ++ rest) = keepsLiterals .outside mode rest := by
  induction text with
  | nil => exact ⟨emit_nil mode, run_nil mode, fun rest => rfl⟩
  | cons byte text hypothesis =>
      have here := all byte List.mem_cons_self
      have later := hypothesis (fun other inside => all other (List.mem_cons_of_mem _ inside))
      have kept := between.step_of_passes here
      refine ⟨?_, ?_, ?_⟩
      · rw [emit_cons, if_pos kept.1, kept.2, later.1]
      · rw [run_cons, kept.2, later.2.1]
      · intro rest
        rw [List.cons_append, keepsLiterals_outside_cons _ here.1, kept.2, later.2.2 rest]

theorem not_quote_of_blank {byte : UInt8} (small : byte ≤ 32) :
    byte ≠ 0x2F ∧ byte ≠ 0x5C ∧ (byte = 0x22 -> False) := by
  refine ⟨?_, ?_, ?_⟩
  · rintro rfl
    exact absurd small (by decide)
  · rintro rfl
    exact absurd small (by decide)
  · rintro rfl
    exact absurd small (by decide)

/-- Whitespace between tokens stays whitespace. -/
theorem Between.blank (between : Between mode) {space : Bytes} (blank : Blank space) :
    Blank (mode.emit space) ∧ mode.run space = mode ∧
      ∀ rest, keepsLiterals .outside mode (space ++ rest) = keepsLiterals .outside mode rest := by
  refine ⟨fun byte inside => blank byte (mem_of_mem_emit inside), ?_⟩
  induction space with
  | nil => exact ⟨run_nil mode, fun rest => rfl⟩
  | cons byte space hypothesis =>
      rcases not_quote_of_blank (blank byte List.mem_cons_self) with ⟨notSlash, notBackslash, notQuote⟩
      have stays : mode.step byte = mode := by
        rcases between with rfl | rfl
        · rw [MinifyMode.step, if_neg notSlash, if_neg notQuote]
        · rw [MinifyMode.step, if_neg notQuote, beq_eq_false_iff_ne.mpr notBackslash]
      have later := hypothesis blank.tail
      refine ⟨?_, ?_⟩
      · rw [run_cons, stays, later.1]
      · intro rest
        rw [List.cons_append, keepsLiterals_outside_cons _ notQuote, stays, later.2 rest]

/-- Inside a literal everything is kept, or the condition fails. -/
theorem quotedBody_kept {body rest : Bytes} (shape : QuotedBody body)
    (kept : keepsLiterals .inside mode (body ++ rest) = true) :
    mode.emit body = body ∧ keepsLiterals .inside (mode.run body) rest = true := by
  induction shape generalizing mode with
  | done => exact ⟨emit_nil mode, kept⟩
  | @plain byte body notQuote notBackslash shape hypothesis =>
      rw [List.cons_append, keepsLiterals, LiteralMode.step, if_neg notQuote, if_neg notBackslash,
        Bool.and_eq_true] at kept
      have here : mode.keeps byte = true := kept.1
      have later := hypothesis kept.2
      exact ⟨by rw [emit_cons, if_pos here, later.1], later.2⟩
  | @escape byte body shape hypothesis =>
      rw [List.cons_append, List.cons_append, keepsLiterals, LiteralMode.step, if_neg (by decide),
        if_pos rfl, keepsLiterals, LiteralMode.step, Bool.and_eq_true, Bool.and_eq_true] at kept
      have first : mode.keeps 0x5C = true := kept.1
      have second : (mode.step 0x5C).keeps byte = true := kept.2.1
      have later := hypothesis kept.2.2
      exact ⟨by rw [emit_cons, if_pos first, emit_cons, if_pos second, later.1], later.2⟩

/-- A string token is kept whole, and the minifier is between tokens again.  This is
what the condition on string literals is for; everything else follows from the tokens
alone. -/
theorem Between.literal (between : Between mode) {body rest : Bytes} (shape : QuotedBody body)
    (kept : keepsLiterals .outside mode (quoted body ++ rest) = true) :
    mode.emit (quoted body) = quoted body ∧ Between (mode.run (quoted body)) ∧
      keepsLiterals .outside (mode.run (quoted body)) rest = true := by
  have opens : mode.keeps 0x22 = true := by
    rcases between with rfl | rfl
    · rfl
    · rfl
  have bytes : quoted body ++ rest = 0x22 :: (body ++ 0x22 :: rest) := by
    simp [CJson.quoted]
  rw [bytes, keepsLiterals, LiteralMode.step, if_pos rfl, Bool.and_eq_true] at kept
  rcases quotedBody_kept shape kept.2 with ⟨same, closing⟩
  rw [keepsLiterals, LiteralMode.step, if_pos rfl, Bool.and_eq_true] at closing
  have closes : ((mode.step 0x22).run body).keeps 0x22 = true := closing.1
  refine ⟨?_, ?_, ?_⟩
  · rw [CJson.quoted, emit_cons, if_pos opens, emit_append, same, emit_cons, if_pos closes, emit_nil]
  · rw [CJson.quoted, run_cons, run_append]
    generalize (mode.step 0x22).run body = last at closes
    cases last with
    | outside => exact Or.inr rfl
    | slash => exact Or.inr rfl
    | line => cases closes
    | block star => cases closes
    | string backslash =>
        cases backslash with
        | false => exact Or.inl rfl
        | true => exact Or.inr rfl
  · rw [CJson.quoted, run_cons, run_append]
    exact closing.2

end Pieces

theorem passes_of_isNumberByte {byte : UInt8} (digit : isNumberByte byte = true) : Passes byte := by
  refine ⟨?_, ?_, ?_, ?_⟩
  · rintro rfl
    exact absurd digit (by decide)
  · rintro rfl
    exact absurd digit (by decide)
  · rintro rfl
    exact absurd digit (by decide)
  · cases blank : isMinifiedBlank byte with
    | false => rfl
    | true =>
        simp only [isMinifiedBlank, Bool.or_eq_true, beq_iff_eq] at blank
        rcases blank with ((rfl | rfl) | rfl) | rfl
        · exact absurd digit (by decide)
        · exact absurd digit (by decide)
        · exact absurd digit (by decide)
        · exact absurd digit (by decide)

theorem Container.opening_passes (kind : Container) : Passes kind.opening := by
  cases kind <;> decide

theorem Container.closing_passes (kind : Container) : Passes kind.closing := by
  cases kind <;> decide

/-- What minifying does to a phrase, from either mode between tokens: the kept bytes
derive the same items.  The condition runs both automata over the text, and asks that
no byte of what the parser takes for a literal is dropped. -/
def Survives (library : CLibrary) (phrase : Phrase) (limit : Nat) (text : Bytes)
    (items : List Item) : Prop :=
  ∀ mode rest, Between mode -> keepsLiterals .outside mode (text ++ rest) = true ->
    Derives library phrase limit (mode.emit text) items ∧ Between (mode.run text) ∧
      keepsLiterals .outside (mode.run text) rest = true

section Survival

variable {library : CLibrary} {limit : Nat}

/-- A token of passing bytes. -/
theorem survives_of_passes {phrase : Phrase} {text : Bytes} {items : List Item}
    (all : ∀ byte ∈ text, Passes byte) (derives : Derives library phrase limit text items) :
    Survives library phrase limit text items := by
  intro mode rest between kept
  rcases between.passes all with ⟨same, stays, passes⟩
  rw [same, stays]
  exact ⟨derives, between, by rw [← passes rest]; exact kept⟩

theorem survives_filled {name : Option Bytes} (kind : Container) {space text : Bytes}
    {items : List Item} (blank : Blank space)
    (entries : Survives library (.entries kind) limit text items) :
    Survives library (.value name) (limit + 1) (kind.opening :: (space ++ (text ++ [kind.closing])))
      [finishContainer (named name) kind.base items] := by
  intro mode rest between kept
  rcases between.step_of_passes kind.opening_passes with ⟨opens, stays⟩
  rcases between.blank blank with ⟨stillBlank, blankRun, blankKeeps⟩
  rw [List.cons_append, keepsLiterals_outside_cons _ kind.opening_passes.1, stays,
    List.append_assoc, blankKeeps, List.append_assoc] at kept
  rcases entries mode _ between kept with ⟨derives, after, later⟩
  rcases after.step_of_passes kind.closing_passes with ⟨closes, remains⟩
  rw [List.singleton_append, keepsLiterals_outside_cons _ kind.closing_passes.1, remains] at later
  refine ⟨?_, ?_, ?_⟩
  · rw [emit_cons, if_pos opens, stays, emit_append, blankRun, emit_append, emit_cons, if_pos closes,
      emit_nil]
    exact .filled kind stillBlank derives
  · rw [run_cons, stays, run_append, blankRun, run_append, run_cons, remains, run_nil]
    exact after
  · rw [run_cons, stays, run_append, blankRun, run_append, run_cons, remains, run_nil]
    exact later

theorem survives_empty {name : Option Bytes} (kind : Container) {space : Bytes}
    (blank : Blank space) :
    Survives library (.value name) (limit + 1) (kind.opening :: (space ++ [kind.closing]))
      [finishContainer (named name) kind.base []] := by
  intro mode rest between kept
  rcases between.step_of_passes kind.opening_passes with ⟨opens, stays⟩
  rcases between.step_of_passes kind.closing_passes with ⟨closes, remains⟩
  rcases between.blank blank with ⟨stillBlank, blankRun, blankKeeps⟩
  rw [List.cons_append, keepsLiterals_outside_cons _ kind.opening_passes.1, stays,
    List.append_assoc, blankKeeps, List.singleton_append,
    keepsLiterals_outside_cons _ kind.closing_passes.1, remains] at kept
  refine ⟨?_, ?_, ?_⟩
  · rw [emit_cons, if_pos opens, stays, emit_append, blankRun, emit_cons, if_pos closes, emit_nil]
    exact .empty kind stillBlank
  · rw [run_cons, stays, run_append, blankRun, run_cons, remains, run_nil]
    exact between
  · rw [run_cons, stays, run_append, blankRun, run_cons, remains, run_nil]
    exact kept

theorem survives_member {token key space gap text : Bytes} {item : Item}
    (accepted : StringToken token key) (blankSpace : Blank space) (blankGap : Blank gap)
    (value : Survives library (.value (some key)) limit text [item]) :
    Survives library (.entry .object) limit (token ++ (space ++ 0x3A :: (gap ++ text))) [item] := by
  intro mode rest between kept
  rcases accepted with ⟨body, pointer, rfl, shape, decoded⟩
  rw [List.append_assoc] at kept
  rcases between.literal shape kept with ⟨same, afterName, kept⟩
  generalize named : mode.run (quoted body) = after at afterName kept
  have colon : Passes 0x3A := by decide
  rcases afterName.step_of_passes colon with ⟨keepsColon, stays⟩
  rcases afterName.blank blankSpace with ⟨spaceBlank, spaceRun, spaceKeeps⟩
  rcases afterName.blank blankGap with ⟨gapBlank, gapRun, gapKeeps⟩
  rw [List.append_assoc, spaceKeeps, List.cons_append, keepsLiterals_outside_cons _ colon.1, stays,
    List.append_assoc, gapKeeps] at kept
  rcases value after rest afterName kept with ⟨derives, last, later⟩
  refine ⟨?_, ?_, ?_⟩
  · rw [emit_append, same, named, emit_append, spaceRun, emit_cons, if_pos keepsColon, stays,
      emit_append, gapRun]
    exact .member ⟨body, pointer, rfl, shape, decoded⟩ spaceBlank gapBlank derives
  · rw [run_append, named, run_append, spaceRun, run_cons, stays, run_append, gapRun]
    exact last
  · rw [run_append, named, run_append, spaceRun, run_cons, stays, run_append, gapRun]
    exact later

theorem survives_last {kind : Container} {text space : Bytes} {item : Item} (blank : Blank space)
    (entry : Survives library (.entry kind) limit text [item]) :
    Survives library (.entries kind) limit (text ++ space) [item] := by
  intro mode rest between kept
  rw [List.append_assoc] at kept
  rcases entry mode _ between kept with ⟨derives, after, later⟩
  rcases after.blank blank with ⟨stillBlank, blankRun, blankKeeps⟩
  rw [blankKeeps] at later
  refine ⟨?_, ?_, ?_⟩
  · rw [emit_append]
    exact .last stillBlank derives
  · rw [run_append, blankRun]
    exact after
  · rw [run_append, blankRun]
    exact later

theorem survives_more {kind : Container} {text space gap rest : Bytes} {item : Item}
    {items : List Item} (blankSpace : Blank space) (blankGap : Blank gap)
    (entry : Survives library (.entry kind) limit text [item])
    (entries : Survives library (.entries kind) limit rest items) :
    Survives library (.entries kind) limit (text ++ (space ++ 0x2C :: (gap ++ rest)))
      (item :: items) := by
  intro mode behind between kept
  rw [List.append_assoc] at kept
  rcases entry mode _ between kept with ⟨derives, after, later⟩
  generalize run : mode.run text = next at after later
  have comma : Passes 0x2C := by decide
  rcases after.step_of_passes comma with ⟨keepsComma, stays⟩
  rcases after.blank blankSpace with ⟨spaceBlank, spaceRun, spaceKeeps⟩
  rcases after.blank blankGap with ⟨gapBlank, gapRun, gapKeeps⟩
  rw [List.append_assoc, spaceKeeps, List.cons_append, keepsLiterals_outside_cons _ comma.1, stays,
    List.append_assoc, gapKeeps] at later
  rcases entries next behind after later with ⟨others, last, final⟩
  refine ⟨?_, ?_, ?_⟩
  · rw [emit_append, run, emit_append, spaceRun, emit_cons, if_pos keepsComma, stays, emit_append,
      gapRun]
    exact .more spaceBlank gapBlank derives others
  · rw [run_append, run, run_append, spaceRun, run_cons, stays, run_append, gapRun]
    exact last
  · rw [run_append, run, run_append, spaceRun, run_cons, stays, run_append, gapRun]
    exact final

theorem survives_of_derives {phrase : Phrase} {text : Bytes} {items : List Item}
    (derives : Derives library phrase limit text items) :
    Survives library phrase limit text items := by
  induction derives with
  | null => exact survives_of_passes (passes_of_all rfl) .null
  | false => exact survives_of_passes (passes_of_all rfl) .false
  | true => exact survives_of_passes (passes_of_all rfl) .true
  | string accepted =>
      rcases accepted with ⟨body, pointer, rfl, shape, decoded⟩
      intro mode rest between kept
      rcases between.literal shape kept with ⟨same, after, later⟩
      rw [same]
      exact ⟨.string ⟨body, pointer, rfl, shape, decoded⟩, after, later⟩
  | number start accepted =>
      exact survives_of_passes (fun byte inside => passes_of_isNumberByte (accepted.bytes byte inside))
        (.number start accepted)
  | empty kind blank => exact survives_empty kind blank
  | filled kind blank _ hypothesis => exact survives_filled kind blank hypothesis
  | element _ hypothesis =>
      intro mode rest between kept
      rcases hypothesis mode rest between kept with ⟨derives, after, later⟩
      exact ⟨.element derives, after, later⟩
  | member accepted blankSpace blankGap _ hypothesis =>
      exact survives_member accepted blankSpace blankGap hypothesis
  | last blank _ hypothesis => exact survives_last blank hypothesis
  | more blankSpace blankGap _ _ hypothesis entries =>
      exact survives_more blankSpace blankGap hypothesis entries

end Survival

/-- A document stays one, with the same tree, as long as the minifier does not mistake
the end of a string literal. -/
theorem document_minified {library : CLibrary} {text : Bytes} {item : Item}
    (document : Document library text item)
    (kept : keepsLiterals .outside .outside text = true) :
    Document library (MinifyMode.outside.emit text) item := by
  rcases document with ⟨mark, lead, core, tail, rfl, marked, blankLead, blankTail, derives⟩
  have between : Between .outside := Or.inl rfl
  have passes : ∀ byte ∈ mark, Passes byte := by
    rcases marked with rfl | rfl
    · exact passes_of_all rfl
    · exact passes_of_all rfl
  rcases between.passes passes with ⟨same, stays, markKeeps⟩
  rcases between.blank blankLead with ⟨leadBlank, leadRun, leadKeeps⟩
  rw [markKeeps, leadKeeps] at kept
  rcases survives_of_derives derives .outside tail between kept with ⟨derived, after, _⟩
  rcases after.blank blankTail with ⟨tailBlank, _, _⟩
  refine ⟨mark, _, _, _, ?_, marked, leadBlank, tailBlank, derived⟩
  rw [emit_append, same, stays, emit_append, leadRun, emit_append]

/-- The parser accepts a C string as a whole, with this tree. -/
def Accepts (library : CLibrary) (hooks : Hooks) (json : Bytes) (item : Item) : Prop :=
  ∃ outcome, cjsonParseWithOpts library hooks json true = .ok outcome ∧ outcome.item = some item

/-- Minifying keeps the tree of an accepted text.  Of texts that are not accepted
nothing is said. -/
def MinifyPreserves (library : CLibrary) (hooks : Hooks) (json : Bytes) : Prop :=
  ∀ item, Accepts library hooks json item -> Accepts library hooks (cjsonMinify json) item

/-- Minifying keeps the tree if, running side by side, its lexer drops no byte
while the parser's lexer is inside a string literal. -/
theorem minify_preserves_tree (library : CLibrary) (consumes : library.ConsumesAtMost)
    (hooks : Hooks) (succeeds : hooks.AlwaysSucceed) (json : Bytes)
    (terminated : (0 : UInt8) ∈ json) (kept : keepsLiterals .outside .outside (text json) = true) :
    MinifyPreserves library hooks json := by
  intro item accepted
  have document := (accepts_iff_document consumes succeeds).mp accepted
  apply (accepts_iff_document consumes succeeds).mpr
  rw [text_cjsonMinify json terminated]
  exact document_minified document kept

/-- The text `["\\t", "b c"]`: the space between the tokens goes, the one in the
second string stays. -/
theorem minify_preserves_tree_escape :
    MinifyPreserves decimalLibrary grantAll
      [0x5B, 0x22, 0x5C, 0x5C, 0x74, 0x22, 0x2C, 0x20, 0x22, 0x62, 0x20, 0x63, 0x22, 0x5D, 0] :=
  minify_preserves_tree decimalLibrary decimalLibrary_consumesAtMost grantAll grantAll_alwaysSucceed
    [0x5B, 0x22, 0x5C, 0x5C, 0x74, 0x22, 0x2C, 0x20, 0x22, 0x62, 0x20, 0x63, 0x22, 0x5D, 0]
    (by decide) (by decide)

/-- The text `["\\", "b c"]`, whose first string ends in an escaped backslash. -/
def escapedBackslashText : Bytes :=
  [0x5B, 0x22, 0x5C, 0x5C, 0x22, 0x2C, 0x20, 0x22, 0x62, 0x20, 0x63, 0x22, 0x5D, 0]

/-- The strings of an array that has been parsed. -/
def parsedStrings (json : Bytes) : Option (List (Option Bytes)) :=
  match cjsonParseWithOpts decimalLibrary grantAll json true with
  | .ok { item := some item, .. } => some (item.child.map (fun child => child.fields.valuestring))
  | _ => none

theorem parsedStrings_eq {json : Bytes} {item : Item}
    (accepted : Accepts decimalLibrary grantAll json item) :
    parsedStrings json = some (item.child.map (fun child => child.fields.valuestring)) := by
  rcases accepted with ⟨outcome, parsed, same⟩
  rcases outcome with ⟨found, parseEnd, errorPosition⟩
  cases same
  rw [parsedStrings, parsed]

theorem accepts_of_parsedStrings {json : Bytes} {strings : List (Option Bytes)}
    (parsed : parsedStrings json = some strings) :
    ∃ item, Accepts decimalLibrary grantAll json item := by
  unfold parsedStrings at parsed
  split at parsed
  · rename_i item _ _ ends
    exact ⟨item, _, ends, rfl⟩
  · cases parsed

/-- Behind the escaped backslash the minifier takes the second string for text
between tokens and drops its space. -/
theorem minify_drops_space_in_string :
    ¬ MinifyPreserves decimalLibrary grantAll escapedBackslashText := by
  intro preserves
  have before : parsedStrings escapedBackslashText =
      some [some [0x5C], some [0x62, 0x20, 0x63]] := by decide +kernel
  have after : parsedStrings (cjsonMinify escapedBackslashText) =
      some [some [0x5C], some [0x62, 0x63]] := by decide +kernel
  rcases accepts_of_parsedStrings before with ⟨item, accepted⟩
  have same := parsedStrings_eq accepted
  rw [before, ← parsedStrings_eq (preserves item accepted), after] at same
  exact absurd same (by decide)

end CJson
