import CJson.MinifyParse
import CJson.PrintParse
import CJson.PrintBuffers

/-!
# Minified printouts

`cjson_print` and `cjson_print_unformatted` differ in the whitespace between
tokens, and `cjson_minify` drops whitespace between tokens.  So minifying the
formatted text should give the unformatted one, byte for byte.

What can keep it from that is a string whose text ends in a backslash: the
minifier stays inside it.  Raw text is copied by the printer, so it has to be
minified already.  Of the C library only the characters of a number matter.
-/

namespace CJson

open CString MinifyMode

/-- Minifying only leaves bytes out. -/
theorem MinifyMode.emit_sublist (mode : MinifyMode) (text : Bytes) : (mode.emit text).Sublist text := by
  induction text generalizing mode with
  | nil =>
      rw [emit_nil]
  | cons byte text hypothesis =>
      rw [emit_cons]
      split
      · exact (hypothesis _).cons_cons byte
      · exact (hypothesis _).cons byte

/-- The block after minifying a C string: what is kept, and its terminator. -/
theorem cjsonMinify_prefix {json : Bytes} (terminated : (0 : UInt8) ∈ json) :
    ∃ rest, cjsonMinify json = outside.emit (text json) ++ 0 :: rest := by
  rcases exists_terminator terminated with ⟨behind, split⟩
  rcases cjsonMinify_eq split with ⟨used, _, _, minified, _⟩
  rw [minified, List.set_append_right _ _ (Nat.le_refl _), Nat.sub_self]
  cases used with
  | nil => exact ⟨behind, rfl⟩
  | cons old used => exact ⟨used ++ 0 :: behind, rfl⟩

/-- Minifying turns one text into the other, and ends between tokens.  The second part
lets texts be put one behind the other. -/
structure Minifies (formatted plain : Bytes) : Prop where
  emits : outside.emit formatted = plain
  ends : outside.run formatted = outside

namespace Minifies

variable {first second formatted plain : Bytes}

theorem nil : Minifies [] [] := ⟨rfl, rfl⟩

theorem append {firstPlain secondPlain : Bytes} (left : Minifies first firstPlain)
    (right : Minifies second secondPlain) : Minifies (first ++ second) (firstPlain ++ secondPlain) where
  emits := by rw [emit_append, left.emits, left.ends, right.emits]
  ends := by rw [run_append, left.ends, right.ends]

theorem of_passes (all : ∀ byte ∈ plain, Passes byte) : Minifies plain plain :=
  have between : Between outside := Or.inl rfl
  ⟨(between.passes all).1, (between.passes all).2.1⟩

theorem cons {byte : UInt8} (passes : Passes byte) (rest : Minifies formatted plain) :
    Minifies (byte :: formatted) (byte :: plain) := by
  have head : Minifies [byte] [byte] := of_passes (fun other inside => by rwa [List.mem_singleton.mp inside])
  exact head.append rest

/-- A space, a tab or a line break is dropped. -/
theorem blank {byte : UInt8} (blank : isMinifiedBlank byte = true) (rest : Minifies formatted plain) :
    Minifies (byte :: formatted) plain := by
  have notSlash : byte ≠ 0x2F := by
    rintro rfl
    exact absurd blank (by decide)
  have notQuote : byte ≠ 0x22 := by
    rintro rfl
    exact absurd blank (by decide)
  have stays : outside.step byte = outside := by
    rw [MinifyMode.step, if_neg notSlash, if_neg notQuote]
  have drops : ¬ outside.keeps byte = true := by
    simp [keeps, blank]
  constructor
  · rw [emit_cons, if_neg drops, stays, rest.emits]
  · rw [run_cons, stays, rest.ends]

theorem tabs (depth : Nat) : Minifies (List.replicate depth 0x09) [] := by
  induction depth with
  | zero => exact nil
  | succ depth hypothesis =>
      rw [List.replicate_succ]
      exact blank rfl hypothesis

theorem length_le (minifies : Minifies formatted plain) : plain.length ≤ formatted.length := by
  rw [← minifies.emits]
  exact (emit_sublist outside formatted).length_le

end Minifies

/-! ## Strings -/

/-- Behind an escape the minifier is in the string, and takes the next quote for
an escaped one if the escape was that of a backslash. -/
theorem escapeByte_minified (byte : UInt8) : ∀ backslash,
    (MinifyMode.string backslash).emit (escapeByte byte) = escapeByte byte ∧
    (MinifyMode.string backslash).run (escapeByte byte) = .string (byte == 0x5C) := by
  induction byte using byte_induction with
  | all value =>
      revert value
      decide +kernel

theorem flatMap_escapeByte_minified (input : Bytes) (backslash : Bool) :
    (MinifyMode.string backslash).emit (input.flatMap escapeByte) = input.flatMap escapeByte ∧
    (MinifyMode.string backslash).run (input.flatMap escapeByte) =
      .string (input.getLast?.elim backslash (· == 0x5C)) := by
  induction input generalizing backslash with
  | nil => exact ⟨emit_nil _, rfl⟩
  | cons byte input hypothesis =>
      rcases escapeByte_minified byte backslash with ⟨kept, behind⟩
      rcases hypothesis (byte == 0x5C) with ⟨keptRest, behindRest⟩
      rw [List.flatMap_cons]
      constructor
      · rw [emit_append, kept, behind, keptRest]
      · rw [run_append, behind, behindRest, List.getLast?_cons]
        cases input.getLast? with
        | none => rfl
        | some last => rfl

/-- A string whose text does not end in a backslash.  Printed, such a backslash is
escaped and stands in front of the closing quote, which the minifier then takes for an
escaped one. -/
def EndsPlain (string : Option Bytes) : Prop :=
  ∀ block, string = some block -> (text block).getLast? ≠ some 0x5C

theorem stringText_minified {string : Option Bytes} (plain : EndsPlain string) :
    Minifies (stringText string) (stringText string) := by
  cases string with
  | none => exact ⟨rfl, rfl⟩
  | some block =>
      rcases flatMap_escapeByte_minified (text block) false with ⟨kept, behind⟩
      have closes : (text block).getLast?.elim false (· == 0x5C) = false := by
        cases last : (text block).getLast? with
        | none => rfl
        | some byte =>
            have other : byte ≠ 0x5C := by
              rintro rfl
              exact plain block rfl last
            exact beq_eq_false_iff_ne.mpr other
      rw [closes] at behind
      have opens : outside.step 0x22 = .string false := rfl
      constructor
      · rw [stringText, emit_cons, if_pos (by rfl), opens, emit_append, kept, behind]
        rfl
      · rw [stringText, run_cons, opens, run_append, behind]
        rfl

/-! ## Numbers -/

/-- `snprintf` writes a finite number with digits, signs, an exponent and the locale's
decimal point. -/
def CLibrary.PrintsNumbers (library : CLibrary) : Prop :=
  ∀ precision value, ∀ byte ∈ library.formatG precision (.finite value),
    isNumberByte byte = true ∨ byte = library.decimalPoint

theorem passes_of_mem_decimalText {value : Int} {byte : UInt8} (inside : byte ∈ decimalText value) :
    Passes byte := by
  apply passes_of_isNumberByte
  rcases mem_decimalText inside with rfl | digit
  · rfl
  · unfold isDigit at digit
    rw [isNumberByte, digit]
    rfl

/-- The number buffer holds `null`, an integer or what `snprintf` has written, at one
precision or another. -/
theorem numberBuffer_cases {library : CLibrary} {fields : Fields} {printed : Bytes}
    (found : numberBuffer library fields = some printed) :
    printed = [0x6E, 0x75, 0x6C, 0x6C] ∨ printed = decimalText fields.valueint ∨
      ∃ precision value, printed = library.formatG precision (.finite value) := by
  cases number : fields.valuedouble with
  | finite value =>
      right
      cases printsAs_of_numberBuffer number found with
      | integer _ => exact Or.inl rfl
      | short _ _ => exact Or.inr ⟨15, value, rfl⟩
      | long _ _ => exact Or.inr ⟨17, value, rfl⟩
  | nan =>
      rw [numberBuffer, number] at found
      cases found
      exact Or.inl rfl
  | infinite negative =>
      rw [numberBuffer, number] at found
      cases found
      exact Or.inl rfl

theorem numberText_minified {library : CLibrary} (numbers : library.PrintsNumbers) {fields : Fields}
    {printed : Bytes} (found : numberBuffer library fields = some printed) :
    Minifies (numberText library printed) (numberText library printed) := by
  have point : Passes 0x2E := by decide
  apply Minifies.of_passes
  intro byte inside
  rcases List.mem_map.mp inside with ⟨source, sourceInside, rfl⟩
  by_cases isPoint : source = library.decimalPoint
  · rw [if_pos isPoint]
    exact point
  · rw [if_neg isPoint]
    rcases numberBuffer_cases found with rfl | rfl | ⟨precision, value, rfl⟩
    · exact passes_of_all rfl source sourceInside
    · exact passes_of_mem_decimalText sourceInside
    · rcases numbers precision value source sourceInside with digit | same
      · exact passes_of_isNumberByte digit
      · exact absurd same isPoint

/-! ## Trees -/

/-- A tree whose text the minifier reads as the printer wrote it: no string and no
member name ends in a backslash, and raw text is minified already. -/
inductive MinifiesPlainly : Item -> Prop where
  | mk {fields : Fields} {child : List Item} {headPrev : HeadPrev}
      (string : fields.type_.base = .string -> EndsPlain fields.valuestring)
      (raw : fields.type_.base = .raw -> ∀ block, fields.valuestring = some block ->
        Minifies (text block) (text block))
      (names : fields.type_.base = .object -> ∀ item ∈ child, EndsPlain item.string)
      (below : ∀ item ∈ child, MinifiesPlainly item) : MinifiesPlainly (.mk fields child headPrev)

section Renderings

variable {library : CLibrary}

/-- What is to be shown of a node: if it has a formatted text, it has an unformatted
one, which is the former minified. -/
def RendersMinified (library : CLibrary) (item : Item) : Prop :=
  ∀ depth formatted, rendering library true depth item = some formatted ->
    ∃ plain, rendering library false depth item = some plain ∧ Minifies formatted plain

theorem arraySeparator_minified (isLast : Bool) :
    Minifies (if isLast then [] else arraySeparator true) (if isLast then [] else arraySeparator false) := by
  cases isLast
  · exact .cons (by decide) (.blank rfl .nil)
  · exact .nil

theorem objectSeparator_minified (isLast : Bool) :
    Minifies (objectSeparator true isLast) (objectSeparator false isLast) := by
  cases isLast
  · exact .cons (by decide) (.blank rfl .nil)
  · exact .blank rfl .nil

theorem renderElements_minified {items : List Item} (each : ∀ item ∈ items, RendersMinified library item)
    {depth : Nat} {formatted : Bytes} (found : renderElements library true depth items = some formatted) :
    ∃ plain, renderElements library false depth items = some plain ∧ Minifies formatted plain := by
  induction items generalizing formatted with
  | nil =>
      rw [renderElements] at found
      cases found
      exact ⟨[], by rw [renderElements], .nil⟩
  | cons item rest hypothesis =>
      rw [renderElements] at found
      obtain ⟨value, valueFound, found⟩ := Option.bind_eq_some_iff.mp found
      obtain ⟨others, othersFound, same⟩ := Option.bind_eq_some_iff.mp found
      cases same
      obtain ⟨plainValue, plainFound, minified⟩ := each item List.mem_cons_self depth value valueFound
      obtain ⟨plainOthers, plainOthersFound, minifiedOthers⟩ :=
        hypothesis (fun other inside => each other (List.mem_cons_of_mem _ inside)) othersFound
      refine ⟨_, ?_, minified.append ((arraySeparator_minified rest.isEmpty).append minifiedOthers)⟩
      rw [renderElements, plainFound, plainOthersFound]
      rfl

theorem renderMembers_minified {items : List Item} (each : ∀ item ∈ items, RendersMinified library item)
    (names : ∀ item ∈ items, EndsPlain item.string) {depth : Nat} {formatted : Bytes}
    (found : renderMembers library true depth items = some formatted) :
    ∃ plain, renderMembers library false depth items = some plain ∧ Minifies formatted plain := by
  induction items generalizing formatted with
  | nil =>
      rw [renderMembers] at found
      cases found
      exact ⟨[], by rw [renderMembers], .nil⟩
  | cons item rest hypothesis =>
      rw [renderMembers] at found
      obtain ⟨value, valueFound, found⟩ := Option.bind_eq_some_iff.mp found
      obtain ⟨others, othersFound, same⟩ := Option.bind_eq_some_iff.mp found
      cases same
      obtain ⟨plainValue, plainFound, minified⟩ := each item List.mem_cons_self depth value valueFound
      obtain ⟨plainOthers, plainOthersFound, minifiedOthers⟩ :=
        hypothesis (fun other inside => each other (List.mem_cons_of_mem _ inside))
          (fun other inside => names other (List.mem_cons_of_mem _ inside)) othersFound
      have name := stringText_minified (names item List.mem_cons_self)
      have colons : Minifies (colon true) (colon false) := .cons (by decide) (.blank rfl .nil)
      refine ⟨_, ?_, (Minifies.tabs depth).append (name.append (colons.append (minified.append
        ((objectSeparator_minified rest.isEmpty).append minifiedOthers))))⟩
      rw [renderMembers, plainFound, plainOthersFound]
      rfl

theorem rendering_minified (numbers : library.PrintsNumbers) {item : Item} (plainly : MinifiesPlainly item) :
    RendersMinified library item := by
  induction plainly with
  | @mk fields child headPrev string raw names below hypothesis =>
      intro depth formatted found
      rw [rendering] at found ⊢
      cases base : fields.type_.base with
      | null =>
          rw [base] at found
          cases found
          exact ⟨_, rfl, .of_passes (passes_of_all rfl)⟩
      | false =>
          rw [base] at found
          cases found
          exact ⟨_, rfl, .of_passes (passes_of_all rfl)⟩
      | true =>
          rw [base] at found
          cases found
          exact ⟨_, rfl, .of_passes (passes_of_all rfl)⟩
      | number =>
          rw [base] at found
          dsimp only at found ⊢
          cases printed : numberBuffer library fields with
          | none =>
              rw [printed] at found
              cases found
          | some buffer =>
              rw [printed] at found
              dsimp only at found ⊢
              split at found
              · cases found
              · rename_i fits
                cases found
                exact ⟨_, if_neg fits, numberText_minified numbers printed⟩
      | raw =>
          rw [base] at found
          obtain ⟨block, stored, rfl⟩ := Option.map_eq_some_iff.mp found
          dsimp only
          rw [stored]
          exact ⟨_, rfl, raw base block stored⟩
      | string =>
          rw [base] at found
          cases found
          exact ⟨_, rfl, stringText_minified (string base)⟩
      | array =>
          rw [base] at found
          dsimp only at found ⊢
          split at found
          · cases found
          · rename_i shallow
            obtain ⟨inner, innerFound, rfl⟩ := Option.map_eq_some_iff.mp found
            obtain ⟨plain, plainFound, minified⟩ := renderElements_minified hypothesis innerFound
            rw [if_neg shallow, plainFound]
            exact ⟨_, rfl, .cons (by decide) (minified.append (.of_passes (passes_of_all rfl)))⟩
      | object =>
          rw [base] at found
          dsimp only at found ⊢
          split at found
          · cases found
          · rename_i shallow
            obtain ⟨inner, innerFound, rfl⟩ := Option.map_eq_some_iff.mp found
            obtain ⟨plain, plainFound, minified⟩ := renderMembers_minified hypothesis (names base) innerFound
            rw [if_neg shallow, plainFound]
            have opening : Minifies (objectOpening true) (objectOpening false) :=
              .cons (by decide) (.blank rfl .nil)
            have closing : Minifies (objectClosing true (depth + 1)) (objectClosing false (depth + 1)) :=
              (Minifies.tabs depth).append (.of_passes (passes_of_all rfl))
            exact ⟨_, rfl, opening.append (minified.append closing)⟩
      | invalid =>
          rw [base] at found
          cases found

end Renderings

/-- Minifying what `cjson_print` has printed leaves what `cjson_print_unformatted`
prints, byte for byte, at the start of the block. -/
theorem minify_print (library : CLibrary) (numbers : library.PrintsNumbers) (item : Item)
    (plainly : MinifiesPlainly item) {allocator after : Allocator} {block : Block}
    (printed : cjsonPrint library item allocator = .ok (some block, after)) :
    ∃ unformatted : Bytes, (∃ rest, cjsonMinify block.bytes = unformatted ++ rest) ∧
      ∀ other : Allocator, other.hooks.AlwaysSucceed -> ∃ plain last,
        cjsonPrintUnformatted library item other = .ok (some plain, last) ∧ plain.bytes = unformatted := by
  obtain ⟨formatted, found, nulFree, holds, fits⟩ := fits_of_printed printed
  obtain ⟨plain, plainFound, minified⟩ := rendering_minified numbers plainly 0 formatted found
  refine ⟨plain ++ [0], ?_, ?_⟩
  · have terminated : (0 : UInt8) ∈ block.bytes := by
      rw [holds]
      simp
    obtain ⟨rest, kept⟩ := cjsonMinify_prefix terminated
    refine ⟨rest, ?_⟩
    rw [kept, holds, text_append_zero nulFree, minified.emits, List.append_assoc]
    rfl
  · intro other succeeds
    obtain ⟨⟨result, last⟩, ran, shape, granted⟩ := printImpl_returns library item false other
    have plainFits : FitsIntMax plain := by
      unfold FitsIntMax at fits ⊢
      exact (Nat.add_le_add_right minified.length_le 2).trans fits
    obtain ⟨returned, rfl⟩ := Option.isSome_iff_exists.mp (granted succeeds plain plainFound plainFits)
    obtain ⟨text, textFound, _, bytes⟩ := shape returned rfl
    cases plainFound.symm.trans textFound
    exact ⟨returned, last, ran, bytes⟩

theorem decimalLibrary_printsNumbers : decimalLibrary.PrintsNumbers := by
  intro precision value byte inside
  left
  rcases mem_decimalText inside with rfl | digit
  · rfl
  · unfold isDigit at digit
    rw [isNumberByte, digit]
    rfl

/-- The tree of `{"k": ["// x", null]}`. -/
def commentLikeTree : Item :=
  .mk { type_ := { base := .object } }
    [.mk { type_ := { base := .array }, string := some [0x6B, 0] }
      [.mk { type_ := { base := .string }, valuestring := some [0x2F, 0x2F, 0x20, 0x78, 0] } [] .null,
        .mk { type_ := { base := .null } } [] .null] (.at 1)] (.at 0)

theorem commentLikeTree_minifiesPlainly : MinifiesPlainly commentLikeTree := by
  have leaf : ∀ {fields : Fields} {headPrev : HeadPrev},
      (fields.type_.base = .string -> EndsPlain fields.valuestring) -> fields.type_.base ≠ .raw ->
      MinifiesPlainly (.mk fields [] headPrev) := by
    intro fields headPrev string notRaw
    exact .mk string (fun raw => absurd raw notRaw) (fun _ _ inside => nomatch inside)
      (fun _ inside => nomatch inside)
  refine .mk (fun impossible => nomatch impossible) (fun impossible => nomatch impossible) ?_ ?_
  · intro _ item inside block stored
    rw [List.mem_singleton] at inside
    subst inside
    cases stored
    decide
  · intro item inside
    rw [List.mem_singleton] at inside
    subst inside
    refine .mk (fun impossible => nomatch impossible) (fun impossible => nomatch impossible)
      (fun impossible => nomatch impossible) ?_
    intro item inside
    rcases List.mem_pair.mp inside with rfl | rfl
    · refine leaf ?_ (by decide)
      intro _ block stored
      cases stored
      decide
    · exact leaf (fun impossible => nomatch impossible) (by decide)

theorem minify_print_commentLikeTree :
    ∃ block after, cjsonPrint decimalLibrary commentLikeTree ⟨⟨fun _ _ => true, true⟩, fun _ _ => 0, []⟩ =
        .ok (some block, after) ∧
      ∃ unformatted : Bytes, (∃ rest, cjsonMinify block.bytes = unformatted ++ rest) ∧
        ∀ other : Allocator, other.hooks.AlwaysSucceed -> ∃ plain last,
          cjsonPrintUnformatted decimalLibrary commentLikeTree other = .ok (some plain, last) ∧
            plain.bytes = unformatted := by
  have rendered : rendering decimalLibrary true 0 commentLikeTree =
      some [0x7B, 0x0A, 0x09, 0x22, 0x6B, 0x22, 0x3A, 0x09, 0x5B, 0x22, 0x2F, 0x2F, 0x20, 0x78, 0x22,
        0x2C, 0x20, 0x6E, 0x75, 0x6C, 0x6C, 0x5D, 0x0A, 0x7D] := by
    decide +kernel
  obtain ⟨⟨block, after⟩, ran, _, granted⟩ := printImpl_returns decimalLibrary commentLikeTree true
    ⟨⟨fun _ _ => true, true⟩, fun _ _ => 0, []⟩
  obtain ⟨printed, rfl⟩ := Option.isSome_iff_exists.mp
    (granted (fun _ _ => rfl) _ rendered (by unfold FitsIntMax; decide))
  have entry : cjsonPrint decimalLibrary commentLikeTree ⟨⟨fun _ _ => true, true⟩, fun _ _ => 0, []⟩ =
    .ok (some printed, after) := ran
  exact ⟨printed, after, entry, minify_print decimalLibrary decimalLibrary_printsNumbers commentLikeTree
    commentLikeTree_minifiesPlainly entry⟩

end CJson
