import CJson.Reread
import CJson.PrintBuffers

/-!
# Printed text is a normal form

Printing what has been parsed from a printed text gives the same text, byte for
byte.  The tree in between need not be the one that was printed first, so this is
no consequence of reading back values: a number that was cut to fifteen digits
has to have the same fifteen digits again, which is what the C standard promises
as `DBL_DIG`.

There is one exception.  A finite number so large that its first fifteen digits
round up beyond the largest double is read back as infinite, and an infinite
number is printed as `null`.
-/

namespace CJson

open CString Item

/-- Fifteen digits survive a `strtod`, and are all the digits of an `int`.  The first
is what the C standard asks of a double, whose `DBL_DIG` is 15. -/
structure CLibrary.KeepsDigits (library : CLibrary) : Prop extends CLibrary.ReadsDoubles library where
  integers : ∀ value, FitsInt32 value -> library.formatG 15 (.ofInt value) = decimalText value
  digits : ∀ value other, Binary64.Representable value ->
    (library.strtod (library.formatG 15 (.finite value))).1 = .finite other ->
    Binary64.Representable other ∧
      library.formatG 15 (.finite other) = library.formatG 15 (.finite value)

/-- No finite number in the tree is read back as an infinite one, or as none.  The
largest doubles fail this: their fifteen digits round up to a number that is no
double. -/
inductive StaysFinite (library : CLibrary) : Item -> Prop where
  | mk {fields : Fields} {child : List Item} {headPrev : HeadPrev}
      (number : fields.type_.base = .number -> ∀ value, fields.valuedouble = .finite value ->
        ∃ other, (library.strtod (library.formatG 15 (.finite value))).1 = .finite other)
      (below : ∀ item ∈ child, StaysFinite library item) : StaysFinite library (.mk fields child headPrev)

theorem fitsInt32_saturate (number : Binary64) : FitsInt32 (saturate number) := by
  have bounds := Binary64.toInt_bounds (show (-2 ^ 31 : Int) ≤ 0 by decide)
    (show (0 : Int) ≤ 2 ^ 31 - 1 by decide) number
  unfold saturate
  split
  · decide
  · split
    · decide
    · exact ⟨bounds.1, by omega⟩

section Numbers

variable {library : CLibrary} {fields : Fields} {value : ℚ}

/-- `strtod` takes the text of a double for that double at least as far as the printer asks. -/
theorem recovers_of_exact {printed : Bytes} {other : ℚ}
    (reads : (library.strtod printed).1 = .finite value) (consumed : (library.strtod printed).2 = printed.length)
    (nonempty : printed ≠ []) (same : other = value) :
    recovers library (.finite other) printed = true := by
  have positive := List.length_pos_of_ne_nil nonempty
  rw [recovers, Bool.and_eq_true, bne_iff_ne, consumed, reads, same]
  exact ⟨by omega, (compareDouble_self_iff _).mpr ⟨value, rfl⟩⟩

theorem formatG_ne_nil (doubles : library.ReadsDoubles) {precision : Nat}
    (representable : Binary64.Representable value) : library.formatG precision (.finite value) ≠ [] := by
  rcases doubles.starts precision value representable with ⟨first, rest, split, _⟩
  rw [split]
  exact List.cons_ne_nil first rest

/-- A number that has fifteen digits for its text is printed by them. -/
theorem numberBuffer_of_short (digits : library.KeepsDigits) (finite : fields.valuedouble = .finite value)
    (integer : FitsInt32 fields.valueint) (representable : Binary64.Representable value)
    (reads : (library.strtod (library.formatG 15 (.finite value))).1 = .finite value)
    (fits : ¬ 26 ≤ (library.formatG 15 (.finite value)).length) :
    numberBuffer library fields = some (library.formatG 15 (.finite value)) := by
  by_cases integral : fields.valuedouble = .ofInt fields.valueint
  · rw [numberBuffer_ofInt integral, ← finite, integral, digits.integers _ integer]
  · have close := recovers_of_exact reads (digits.whole 15 value representable)
      (formatG_ne_nil digits.toReadsDoubles representable) rfl
    rw [finite] at integral
    unfold numberBuffer
    rw [finite]
    dsimp only
    rw [if_neg integral, formatNumberG, if_neg fits]
    dsimp only
    rw [if_pos close]

/-- A number whose fifteen digits are not enough is no `int`, since an `int` has ten
digits at most. -/
theorem ne_ofInt_of_far (digits : library.KeepsDigits) {integer : Int} (small : FitsInt32 integer)
    (far : ¬ 26 ≤ (library.formatG 15 (.finite value)).length ->
      recovers library (.finite value) (library.formatG 15 (.finite value)) = false) :
    Binary64.finite value ≠ .ofInt integer := by
  intro same
  rw [same, digits.integers integer small] at far
  have short := decimalText_fits small
  have reads := digits.strtod_eq integer small
  have nonempty : decimalText integer ≠ [] := by
    rcases decimalText_cons integer with ⟨first, rest, split, _⟩
    rw [split]
    exact List.cons_ne_nil first rest
  have close := recovers_of_exact (congrArg Prod.fst reads) (congrArg Prod.snd reads)
    nonempty rfl
  rw [← Binary64.ofInt, far (by omega)] at close
  cases close

/-- The number that is read back is printed with the same characters.  For an integer
this is the agreement of both fields; for a fraction it is what the C library promises
about its digits, for which the number has to stay finite. -/
theorem PrintsAs.again (digits : library.KeepsDigits) {printed : Bytes}
    (prints : PrintsAs library fields value printed)
    (integer : FitsInt32 fields.valueint) (representable : Binary64.Representable value)
    (stays : ∃ other, (library.strtod (library.formatG 15 (.finite value))).1 = .finite other)
    {again : Fields} (double : again.valuedouble = (library.strtod printed).1)
    (int : again.valueint = saturate (library.strtod printed).1) :
    numberBuffer library again = some printed := by
  have small : FitsInt32 again.valueint := by
    rw [int]
    exact fitsInt32_saturate _
  cases prints with
  | integer same =>
      rw [digits.strtod_eq _ integer] at double int
      rw [saturate_ofInt integer.1 integer.2] at int
      rw [← int]
      exact numberBuffer_ofInt (by rw [double, int])
  | short close fits =>
      rcases stays with ⟨other, reads⟩
      rcases digits.digits value other representable reads with ⟨otherRepresentable, sameDigits⟩
      rw [reads] at double
      rw [← sameDigits] at reads fits ⊢
      exact numberBuffer_of_short digits double small otherRepresentable reads fits
  | long far fits =>
      rw [digits.exact value representable] at double
      have fraction := ne_ofInt_of_far digits small far
      unfold numberBuffer
      rw [double]
      dsimp only
      rw [if_neg fraction]
      by_cases long : 26 ≤ (library.formatG 15 (.finite value)).length
      · rw [formatNumberG, if_pos long]
        dsimp only
        rw [formatNumberG, if_neg fits]
      · rw [formatNumberG, if_neg long]
        dsimp only
        rw [far long, if_neg Bool.false_ne_true, formatNumberG, if_neg fits]

end Numbers

/-! ## Trees -/

section Trees

variable {library : CLibrary} {format : Bool}

theorem stringText_text_getD (string : Option Bytes) :
    stringText (some (text (string.getD []))) = stringText string := by
  cases string with
  | none => rfl
  | some block => rw [stringText, Option.getD_some, text_text, stringText]

/-- What is read back for a node has the text of the node. -/
def PrintsAgain (library : CLibrary) (format : Bool) (item : Item) : Prop :=
  ∀ name depth text, rendering library format depth item = some text ->
    rendering library format depth (reread library name item) = some text

theorem renderElements_reread {items : List Item} (each : ∀ item ∈ items, PrintsAgain library format item)
    {depth : Nat} {text : Bytes} (rendered : renderElements library format depth items = some text) :
    renderElements library format depth (rereadElements library items) = some text := by
  induction items generalizing text with
  | nil => exact rendered
  | cons item rest hypothesis =>
      rw [renderElements] at rendered
      rcases Option.bind_eq_some_iff.mp rendered with ⟨front, frontFound, rendered⟩
      rcases Option.bind_eq_some_iff.mp rendered with ⟨back, backFound, same⟩
      have others := hypothesis (fun other inside => each other (List.mem_cons_of_mem _ inside)) backFound
      have empty : (rereadElements library rest).isEmpty = rest.isEmpty := by
        cases rest <;> rfl
      rw [rereadElements, renderElements, each item List.mem_cons_self none depth front frontFound, others, empty]
      exact same

theorem renderMembers_reread {items : List Item} (each : ∀ item ∈ items, PrintsAgain library format item)
    {depth : Nat} {text : Bytes} (rendered : renderMembers library format depth items = some text) :
    renderMembers library format depth (rereadMembers library items) = some text := by
  induction items generalizing text with
  | nil => exact rendered
  | cons item rest hypothesis =>
      rw [renderMembers] at rendered
      rcases Option.bind_eq_some_iff.mp rendered with ⟨front, frontFound, rendered⟩
      rcases Option.bind_eq_some_iff.mp rendered with ⟨back, backFound, same⟩
      have others := hypothesis (fun other inside => each other (List.mem_cons_of_mem _ inside)) backFound
      have empty : (rereadMembers library rest).isEmpty = rest.isEmpty := by
        cases rest <;> rfl
      have name : stringText (some item.key) = stringText item.string := stringText_text_getD item.string
      rw [rereadMembers, renderMembers, each item List.mem_cons_self _ depth front frontFound, others, empty,
        string_reread, name]
      exact same

theorem rendering_rereadNumber (digits : library.KeepsDigits) {fields : Fields} {name : Option Bytes}
    {printed : Bytes} (integer : FitsInt32 fields.valueint)
    (double : ∀ value, fields.valuedouble = .finite value -> Binary64.Representable value)
    (stays : ∀ value, fields.valuedouble = .finite value ->
      ∃ other, (library.strtod (library.formatG 15 (.finite value))).1 = .finite other)
    (found : numberBuffer library fields = some printed) (fits : ¬ 25 < printed.length) (depth : Nat) :
    rendering library format depth (rereadNumber library name fields) = some (numberText library printed) := by
  have null : ∀ printed, some [0x6E, 0x75, 0x6C, 0x6C] = some printed ->
      rendering library format depth (setLiteral (named name) .null 0) = some (numberText library printed) := by
    intro printed same
    cases same
    rw [numberText_null digits.toReadsDoubles]
    rfl
  cases kind : fields.valuedouble with
  | finite value =>
      have prints := printsAs_of_numberBuffer kind found
      have again := @PrintsAs.again library fields value digits printed prints integer (double value kind)
        (stays value kind) (setNumber (named name) (library.strtod printed).1).fields rfl rfl
      rw [rereadNumber, kind, found, Option.getD_some]
      rw [setNumber, named, Item.withFields] at again ⊢
      rw [fields_mk] at again
      rw [rendering]
      dsimp only
      rw [again]
      exact if_neg fits
  | nan =>
      rw [numberBuffer, kind] at found
      rw [rereadNumber, kind]
      exact null printed found
  | infinite negative =>
      rw [numberBuffer, kind] at found
      rw [rereadNumber, kind]
      exact null printed found

theorem printsAgain (digits : library.KeepsDigits) {item : Item} (legible : Legible item)
    (stays : StaysFinite library item) : PrintsAgain library format item := by
  induction legible with
  | @mk fields child headPrev raw integer double below each =>
      intro name depth text rendered
      cases stays with
      | mk number staysBelow =>
          have each : ∀ item ∈ child, PrintsAgain library format item :=
            fun item member => each item member (staysBelow item member)
          unfold rendering at rendered
          unfold reread
          cases base : fields.type_.base with
          | number =>
              simp only [base] at rendered ⊢
              cases found : numberBuffer library fields with
              | none =>
                  rw [found] at rendered
                  cases rendered
              | some printed =>
                  rw [found] at rendered
                  dsimp only at rendered
                  split at rendered
                  · cases rendered
                  · rename_i fits
                    cases rendered
                    exact rendering_rereadNumber digits (integer base) (double base) (number base) found fits depth
          | string =>
              simp only [base] at rendered ⊢
              rw [← rendered, ← stringText_text_getD]
              rfl
          | array =>
              simp only [base] at rendered ⊢
              rw [finishContainer, rendering]
              dsimp only
              split at rendered
              · cases rendered
              · rename_i shallow
                rcases Option.map_eq_some_iff.mp rendered with ⟨inner, innerFound, rfl⟩
                rw [if_neg shallow, renderElements_reread each innerFound]
                rfl
          | object =>
              simp only [base] at rendered ⊢
              rw [finishContainer, rendering]
              dsimp only
              split at rendered
              · cases rendered
              · rename_i shallow
                rcases Option.map_eq_some_iff.mp rendered with ⟨inner, innerFound, rfl⟩
                rw [if_neg shallow, renderMembers_reread each innerFound]
                rfl
          | raw => exact absurd base raw
          | null =>
              simp only [base] at rendered ⊢
              exact rendered
          | false =>
              simp only [base] at rendered ⊢
              exact rendered
          | true =>
              simp only [base] at rendered ⊢
              exact rendered
          | invalid =>
              simp only [base] at rendered
              cases rendered

end Trees

/-- Printing, parsing and printing again gives the text of the first print, whatever
the hooks of the parser and the memory of the second print are, as long as nothing is
refused. -/
theorem print_parse_print (library : CLibrary) (digits : library.KeepsDigits) (item : Item) (format : Bool)
    (legible : Legible item) (stays : StaysFinite library item) {allocator after : Allocator} {block : Block}
    (printed : (if format then cjsonPrint library item allocator
      else cjsonPrintUnformatted library item allocator) = .ok (some block, after)) :
    ∃ parsed, (∀ hooks : Hooks, hooks.AlwaysSucceed -> cjsonParseWithOpts library hooks block.bytes true =
        .ok { item := some parsed, parseEnd := (text block.bytes).length, errorPosition := none }) ∧
      ∀ other : Allocator, other.hooks.AlwaysSucceed -> ∃ again last,
        (if format then cjsonPrint library parsed other else cjsonPrintUnformatted library parsed other) =
          .ok (some again, last) ∧ again.bytes = block.bytes := by
  have impl : ∀ {item allocator result}, (if format then cjsonPrint library item allocator
      else cjsonPrintUnformatted library item allocator) = result ↔
        printImpl library item format allocator = result := by
    intro item allocator result
    cases format
    · exact Iff.rfl
    · exact Iff.rfl
  obtain ⟨r, rendered, nulFree, holds, fits⟩ := fits_of_printed (impl.mp printed)
  refine ⟨reread library none item, fun hooks succeeds =>
    parse_rendering digits.toReadsDoubles legible rendered nulFree holds succeeds, fun other succeeds => ?_⟩
  have again := printsAgain digits legible stays none 0 r rendered
  obtain ⟨⟨result, last⟩, ran, shape, granted⟩ :=
    printImpl_returns library (reread library none item) format other
  obtain ⟨returned, rfl⟩ := Option.isSome_iff_exists.mp (granted succeeds r again fits)
  obtain ⟨text, textFound, _, bytes⟩ := shape returned rfl
  cases again.symm.trans textFound
  exact ⟨returned, last, impl.mpr ran, bytes.trans holds.symm⟩

theorem fractionLibrary_keepsDigits : fractionLibrary.KeepsDigits where
  toReadsDoubles := fractionLibrary_readsDoubles
  integers value _ := by
    show fractionText value = _
    rw [fractionText, Rat.den_intCast, Rat.num_intCast, if_pos rfl, List.append_nil]
  digits value other representable reads := by
    have same : Binary64.finite value = .finite other :=
      (congrArg Prod.fst (fractionStrtod_fractionText value)).symm.trans reads
    cases same
    exact ⟨representable, rfl⟩

theorem print_parse_print_largeTree : ∃ block after,
    cjsonPrintUnformatted fractionLibrary largeTree ⟨grantAll, fun _ _ => 0, []⟩ = .ok (some block, after) ∧
      ∃ parsed, (∀ hooks : Hooks, hooks.AlwaysSucceed ->
          cjsonParseWithOpts fractionLibrary hooks block.bytes true =
            .ok { item := some parsed, parseEnd := (text block.bytes).length, errorPosition := none }) ∧
        ∀ other : Allocator, other.hooks.AlwaysSucceed -> ∃ again last,
          (if false then cjsonPrint fractionLibrary parsed other
            else cjsonPrintUnformatted fractionLibrary parsed other) = .ok (some again, last) ∧
              again.bytes = block.bytes := by
  obtain ⟨block, after, printed⟩ := largeTree_prints
  have stays : StaysFinite fractionLibrary largeTree := by
    refine .mk (fun impossible => nomatch impossible) fun item inside => ?_
    rw [List.mem_singleton.mp inside]
    refine .mk (fun _ value _ => ⟨value, ?_⟩) (fun _ impossible => nomatch impossible)
    exact congrArg Prod.fst (fractionStrtod_fractionText value)
  exact ⟨block, after, printed, print_parse_print fractionLibrary fractionLibrary_keepsDigits largeTree false
    largeTree_legible stays printed⟩

end CJson
