import CJson.Cursor
import CJson.Library.Decimal

/-!
# The parser stays inside its buffer

Every function of the parser, started with its cursor inside the buffer, ends
without a fault and leaves the cursor inside; if it succeeds the cursor has
moved forward.  The two facts need each other: a container calls `parse_value`
behind the byte it has just read, so the recursion descends on what remains,
and the budget of `parseFuel` covers every nesting of calls.

Nothing is assumed of the allocation hooks.  Of `strtod` only that it consumes
no more than it is given.
-/

namespace CJson

open CString

/-- `strtod` consumes between nothing and all of its argument. -/
def CLibrary.ConsumesAtMost (library : CLibrary) : Prop :=
  ∀ run : Bytes, (library.strtod run).2 ≤ run.length

/-- The same buffer, with the cursor somewhere inside.  The cursor may have gone back,
as it does after a bracket, but not in front of the memory. -/
structure ParseBuffer.Reaches (before after : ParseBuffer) : Prop where
  content_eq : after.content = before.content
  length_eq : after.length = before.length
  offset_le : after.offset ≤ after.length

namespace ParseBuffer

variable {before middle after buffer : ParseBuffer}

theorem Reaches.valid (reaches : before.Reaches after) (valid : before.Valid) : after.Valid :=
  ⟨by rw [reaches.length_eq, reaches.content_eq]; exact valid.length_eq, reaches.offset_le⟩

theorem Reaches.trans (first : before.Reaches middle) (second : middle.Reaches after) :
    before.Reaches after :=
  ⟨second.content_eq.trans first.content_eq, second.length_eq.trans first.length_eq,
    second.offset_le⟩

theorem Valid.reaches_self (valid : buffer.Valid) : buffer.Reaches buffer :=
  ⟨rfl, rfl, valid.offset_le⟩

theorem Valid.reaches_skip (valid : buffer.Valid) {count : Nat}
    (inside : count ≤ buffer.remaining.length) : buffer.Reaches (buffer.skip count) :=
  ⟨rfl, rfl, (valid.skip inside).offset_le⟩

/-- Neither the depth nor the hooks matter to where the cursor is. -/
theorem Reaches.withDepth (reaches : before.Reaches after) (depth : Nat) :
    before.Reaches { after with depth := depth } :=
  ⟨reaches.content_eq, reaches.length_eq, reaches.offset_le⟩

theorem Valid.withDepth (valid : buffer.Valid) (depth : Nat) :
    ParseBuffer.Valid { buffer with depth := depth } :=
  ⟨valid.length_eq, valid.offset_le⟩

theorem Valid.reaches_requested (valid : buffer.Valid) (size : Nat) :
    buffer.Reaches (buffer.requested size) :=
  ⟨rfl, rfl, valid.offset_le⟩

theorem Valid.requested (valid : buffer.Valid) (size : Nat) : (buffer.requested size).Valid :=
  ⟨valid.length_eq, valid.offset_le⟩

theorem Valid.read_returns (valid : buffer.Valid) {index : Nat} (inside : index < buffer.length) :
    Returns (buffer.read index) (fun byte => buffer.content[index]? = some byte) := by
  have bound : index < buffer.content.length := by rw [← valid.length_eq]; exact inside
  have found := List.getElem?_eq_getElem bound
  refine Returns.of_eq ?_ found
  rw [read, found]

theorem seek_returns {offset : Nat} (inside : offset ≤ buffer.length) :
    Returns (buffer.seek offset) (fun after => buffer.Reaches after ∧ after.offset = offset) := by
  refine Returns.of_eq (if_pos inside) ?_
  exact ⟨⟨rfl, rfl, inside⟩, rfl⟩

end ParseBuffer

open ParseBuffer

/-! ## Strings -/

theorem parseHexLoop_returns {buffer : ParseBuffer} (valid : buffer.Valid) {count input h : Nat}
    (inside : input + count ≤ buffer.length) :
    Returns (parseHexLoop buffer count input h) (fun _ => True) := by
  induction count generalizing input h with
  | zero => exact Returns.ok trivial
  | succ count hypothesis =>
      refine Returns.bind (valid.read_returns (by omega)) ?_
      intro byte _ _
      cases hexDigit byte with
      | none => exact Returns.ok trivial
      | some digit => exact hypothesis (by omega)

theorem utf16Codepoint_returns {buffer : ParseBuffer} (valid : buffer.Valid)
    {inputPointer inputEnd : Nat} (inside : inputEnd < buffer.length) :
    Returns (utf16Codepoint buffer inputPointer inputEnd)
      (fun result => ∀ codepoint sequenceLength, result = some (codepoint, sequenceLength) ->
        1 ≤ sequenceLength ∧ inputPointer + sequenceLength ≤ inputEnd) := by
  unfold utf16Codepoint
  refine Returns.ite (fun _ => Returns.ok (by simp)) ?_
  intro long
  refine Returns.bind (parseHexLoop_returns valid (by omega)) ?_
  intro firstCode _ _
  refine Returns.ite (fun _ => Returns.ok (by simp)) ?_
  intro _
  refine Returns.ite ?_ ?_
  · intro _
    refine Returns.ite (fun _ => Returns.ok (by simp)) ?_
    intro longer
    refine Returns.bind (valid.read_returns (by omega)) ?_
    intro backslash _ _
    refine Returns.ite (fun _ => Returns.ok (by simp)) ?_
    intro _
    refine Returns.bind (valid.read_returns (by omega)) ?_
    intro letter _ _
    refine Returns.ite (fun _ => Returns.ok (by simp)) ?_
    intro _
    refine Returns.bind (parseHexLoop_returns valid (by omega)) ?_
    intro secondCode _ _
    refine Returns.ite (fun _ => Returns.ok (by simp)) ?_
    intro _
    refine Returns.ok ?_
    intro codepoint sequenceLength same
    cases same
    omega
  · intro _
    refine Returns.ok ?_
    intro codepoint sequenceLength same
    cases same
    omega

theorem utf16LiteralToUtf8_returns {buffer : ParseBuffer} (valid : buffer.Valid)
    {inputPointer inputEnd : Nat} (inside : inputEnd < buffer.length) :
    Returns (utf16LiteralToUtf8 buffer inputPointer inputEnd)
      (fun result => result.1 ≠ 0 -> inputPointer + result.1 ≤ inputEnd) := by
  refine Returns.bind (utf16Codepoint_returns valid inside) ?_
  intro result _ bounds
  cases result with
  | none => exact Returns.ok (by simp)
  | some pair =>
      rcases pair with ⟨codepoint, sequenceLength⟩
      simp only
      cases encodeCodepoint codepoint with
      | none => exact Returns.ok (by simp)
      | some bytes => exact Returns.ok (fun _ => (bounds _ _ rfl).2)

theorem findClosingQuote_returns {buffer : ParseBuffer} (valid : buffer.Valid)
    {fuel inputEnd skippedBytes : Nat} (enough : buffer.length + 1 ≤ fuel + inputEnd) (positive : 0 < fuel) :
    Returns (findClosingQuote buffer fuel inputEnd skippedBytes)
      (fun result => ∀ quote skipped, result = some (quote, skipped) ->
        inputEnd ≤ quote ∧ quote < buffer.length) := by
  induction fuel generalizing inputEnd skippedBytes with
  | zero => exact absurd positive (Nat.lt_irrefl 0)
  | succ fuel hypothesis =>
      unfold findClosingQuote
      refine Returns.ite (fun _ => Returns.ok (by simp)) ?_
      intro inside
      refine Returns.bind (valid.read_returns (by omega)) ?_
      intro byte _ _
      refine Returns.ite ?_ ?_
      · intro _
        refine Returns.ok ?_
        intro quote skipped same
        cases same
        omega
      · intro _
        refine Returns.ite ?_ ?_
        · intro _
          refine Returns.ite (fun _ => Returns.ok (by simp)) ?_
          intro _
          refine Returns.mono (hypothesis (by omega) (by omega)) ?_
          intro result bounds quote skipped same
          have found := bounds quote skipped same
          omega
        · intro _
          refine Returns.mono (hypothesis (by omega) (by omega)) ?_
          intro result bounds quote skipped same
          have found := bounds quote skipped same
          omega

theorem decodeString_returns {buffer : ParseBuffer} (valid : buffer.Valid)
    {fuel inputEnd inputPointer : Nat} {output : Bytes} (inside : inputEnd < buffer.length)
    (enough : inputEnd < fuel + inputPointer) (positive : 0 < fuel) :
    Returns (decodeString buffer inputEnd fuel inputPointer output) (fun _ => True) := by
  induction fuel generalizing inputPointer output with
  | zero => exact absurd positive (Nat.lt_irrefl 0)
  | succ fuel hypothesis =>
      unfold decodeString
      refine Returns.ite (fun _ => Returns.ok trivial) ?_
      intro before
      refine Returns.bind (valid.read_returns (by omega)) ?_
      intro byte _ _
      refine Returns.ite (fun _ => hypothesis (by omega) (by omega)) ?_
      intro _
      refine Returns.bind (valid.read_returns (by omega)) ?_
      intro code _ _
      cases simpleEscape code with
      | some decoded => exact hypothesis (by omega) (by omega)
      | none =>
          refine Returns.ite ?_ (fun _ => Returns.ok trivial)
          intro _
          refine Returns.bind (utf16LiteralToUtf8_returns valid inside) ?_
          intro result _ bound
          rcases result with ⟨sequenceLength, bytes⟩
          refine Returns.ite (fun _ => Returns.ok trivial) ?_
          intro nonzero
          have inRange : inputPointer + sequenceLength ≤ inputEnd := bound nonzero
          exact hypothesis (by omega) (by omega)

theorem failAfterQuote_returns {α : Type} {buffer : ParseBuffer} {startOffset : Nat}
    (inside : startOffset < buffer.length) :
    Returns (failAfterQuote buffer startOffset : Except Fault (Option α × ParseBuffer))
      (fun result => buffer.Reaches result.2 ∧ result.1 = none) := by
  refine Returns.bind (seek_returns inside) ?_
  intro after _ reached
  exact Returns.ok ⟨reached.1, rfl⟩

/-- A successful `parse_string` has passed two quotes; a failure may leave the cursor
where the trouble is. -/
theorem parseStringBytes_returns {buffer : ParseBuffer} (valid : buffer.Valid)
    (inside : buffer.offset < buffer.length) :
    Returns (parseStringBytes buffer)
      (fun result => buffer.Reaches result.2 ∧
        (result.1 ≠ none -> buffer.offset < result.2.offset)) := by
  have failing : Returns (failAfterQuote buffer buffer.offset : Except Fault (Option Bytes × ParseBuffer))
      (fun result => buffer.Reaches result.2 ∧
        (result.1 ≠ none -> buffer.offset < result.2.offset)) :=
    Returns.mono (failAfterQuote_returns inside)
      (fun result reached => ⟨reached.1, fun succeeded => absurd reached.2 succeeded⟩)
  unfold parseStringBytes parseStringWith
  dsimp only [ParseState.buffer, ParseState.requested, ParseState.deallocate, ParseState.withBuffer]
  refine Returns.bind (valid.read_returns inside) ?_
  intro quote _ _
  refine Returns.ite (fun _ => failing) ?_
  intro _
  refine Returns.bind (findClosingQuote_returns valid (by omega) (by omega)) ?_
  intro found _ bounds
  cases found with
  | none => exact failing
  | some pair =>
      rcases pair with ⟨inputEnd, skippedBytes⟩
      have range := bounds inputEnd skippedBytes rfl
      simp only
      have reaches := valid.reaches_requested (inputEnd - buffer.offset - skippedBytes + 1)
      refine Returns.ite ?_ ?_
      · intro _
        refine Returns.mono (@failAfterQuote_returns _ (buffer.requested _) _ inside) ?_
        intro result reached
        exact ⟨reaches.trans reached.1, fun succeeded => absurd reached.2 succeeded⟩
      · intro _
        refine Returns.bind (decodeString_returns (valid.requested _) range.2
          (by omega) (by omega)) ?_
        intro decoded _ _
        rcases decoded with ⟨inputPointer, output⟩
        refine Returns.ite ?_ ?_
        · intro short
          refine Returns.bind (seek_returns (Nat.le_trans (Nat.le_of_lt short)
            (Nat.le_of_lt range.2))) ?_
          intro after _ reached
          exact Returns.ok ⟨reaches.trans reached.1, by simp⟩
        · intro _
          refine Returns.bind (seek_returns (Nat.succ_le_of_lt range.2)) ?_
          intro after _ reached
          refine Returns.ok ⟨reaches.trans reached.1, ?_⟩
          intro _
          simp only [reached.2]
          omega

/-- What every parser function establishes: the cursor still in the buffer, and
further on after a success.  It does not fault, except for want of fuel when the fuel
was not `enough`.  That a success uses up a byte is what bounds the recursion. -/
def Progresses {α : Type} (before : ParseBuffer) (enough : Prop)
    (run : Except Fault (Option α × ParseBuffer)) : Prop :=
  Yields run
    (fun result => before.Reaches result.2 ∧
      (result.1 ≠ none -> before.offset < result.2.offset))
    (fun fault => fault = .outOfFuel ∧ ¬ enough)

namespace Progresses

variable {α β : Type} {before middle after : ParseBuffer} {enough less : Prop}

/-- A failure only has to stay inside. -/
theorem fail (reaches : before.Reaches after) :
    Progresses (α := α) before enough (.ok (none, after)) :=
  Yields.ok ⟨reaches, fun succeeded => absurd rfl succeeded⟩

theorem succeed {value : Option α} (reaches : before.Reaches after)
    (further : before.offset < after.offset) : Progresses before enough (.ok (value, after)) :=
  Yields.ok ⟨reaches, fun _ => further⟩

theorem outOfFuel (short : ¬ enough) :
    Progresses (α := α) before enough (.error .outOfFuel) :=
  Yields.error ⟨rfl, short⟩

/-- Running on from a buffer that is at least as far. -/
theorem from_later {run : Except Fault (Option α × ParseBuffer)} (reaches : before.Reaches middle)
    (further : before.offset ≤ middle.offset) (suffices_ : enough -> less)
    (progresses : Progresses middle less run) : Progresses before enough run := by
  refine Yields.mono progresses ?_ ?_
  · intro result reached
    exact ⟨reaches.trans reached.1,
      fun succeeded => Nat.lt_of_le_of_lt further (reached.2 succeeded)⟩
  · intro fault stopped
    exact ⟨stopped.1, fun held => stopped.2 (suffices_ held)⟩

/-- A step that cannot fault, and then the rest.  The step asks for nothing but its
postcondition. -/
theorem step {first : Except Fault β} {post : β -> Prop}
    {next : β -> Except Fault (Option α × ParseBuffer)} (returns : Returns first post)
    (rest : ∀ value, post value -> Progresses before enough (next value)) :
    Progresses before enough (first >>= next) :=
  Yields.bind_returns returns rest

/-- A call of another parser function, whose failure is passed on.  The callee has
moved the cursor forward if it succeeds, and what comes next starts there. -/
theorem call {run : Except Fault (Option β × ParseBuffer)}
    {next : Option β × ParseBuffer -> Except Fault (Option α × ParseBuffer)}
    (progresses : Progresses middle less run) (suffices_ : enough -> less)
    (failed : ∀ later, middle.Reaches later -> Progresses before enough (next (none, later)))
    (succeeded : ∀ value later, middle.Reaches later -> middle.offset < later.offset ->
      Progresses before enough (next (some value, later))) :
    Progresses before enough (run >>= next) := by
  refine Yields.bind progresses (fun fault stopped =>
    ⟨stopped.1, fun held => stopped.2 (suffices_ held)⟩) ?_
  intro result reached
  rcases result with ⟨value, later⟩
  cases value with
  | none => exact failed later reached.1
  | some value => exact succeeded value later reached.1 (reached.2 (Option.some_ne_none value))

end Progresses

/-- What is made of the output of `parse_string` has no influence on the rest: the
same requests are made, and the cursor ends at the same place. -/
theorem parseStringWith_map {Node State α β : Type} [ParseState Node State] (change : α -> β)
    (store : Nat -> Bytes -> α) (s : State) :
    (fun result : Option α × State => (result.1.map change, result.2)) <$> parseStringWith store s =
      parseStringWith (fun block output => change (store block output)) s := by
  have failing : ∀ (s : State) (startOffset : Nat),
      (fun result : Option α × State => (result.1.map change, result.2)) <$> failAfterQuote s startOffset =
        failAfterQuote s startOffset := by
    intro s startOffset
    rw [failAfterQuote, map_bind]
    rfl
  rw [parseStringWith, parseStringWith, map_bind]
  congr 1
  funext quote
  rw [apply_ite (Functor.map _), failing, map_bind]
  congr 2
  funext found
  cases found with
  | none => exact failing _ _
  | some found =>
      rw [apply_ite (Functor.map _), failing, map_bind]
      congr 2
      funext decoded
      dsimp only
      rw [apply_ite (Functor.map _), map_bind, map_bind]
      rfl

/-- On an item, `parse_string` stores the bytes. -/
theorem parseString_eq (item : Item) (buffer : ParseBuffer) :
    parseString item buffer =
      (fun result => (result.1.map (setString item), result.2)) <$> parseStringBytes buffer :=
  (parseStringWith_map (setString item) _ buffer).symm

theorem parseString_eq_ok {item : Item} {found : Option Item} {buffer after : ParseBuffer} :
    parseString item buffer = .ok (found, after) ↔
      ∃ output, parseStringBytes buffer = .ok (output, after) ∧ output.map (setString item) = found := by
  rw [parseString_eq]
  constructor
  · intro parsed
    cases ran : parseStringBytes buffer with
    | error fault =>
        rw [ran] at parsed
        cases parsed
    | ok result =>
        rw [ran] at parsed
        cases parsed
        exact ⟨result.1, rfl, rfl⟩
  · rintro ⟨output, ran, rfl⟩
    rw [ran]
    rfl

theorem parseString_eq_some {item found : Item} {buffer after : ParseBuffer} :
    parseString item buffer = .ok (some found, after) ↔
      ∃ output, parseStringBytes buffer = .ok (some output, after) ∧ setString item output = found := by
  rw [parseString_eq_ok]
  constructor
  · rintro ⟨output, ran, stored⟩
    rcases Option.map_eq_some_iff.mp stored with ⟨written, rfl, same⟩
    exact ⟨written, ran, same⟩
  · rintro ⟨output, ran, rfl⟩
    exact ⟨some output, ran, rfl⟩

theorem parseString_progresses {buffer : ParseBuffer} (enough : Prop) (item : Item)
    (valid : buffer.Valid) (inside : buffer.offset < buffer.length) :
    Progresses buffer enough (parseString item buffer) := by
  rw [parseString_eq, map_eq_pure_bind]
  refine Progresses.step (parseStringBytes_returns valid inside) ?_
  intro result reached
  rcases result with ⟨output, after⟩
  cases output with
  | none => exact Progresses.fail reached.1
  | some output => exact Progresses.succeed reached.1 (reached.2 (Option.some_ne_none output))

/-! ## Numbers -/

theorem numberRun_returns {buffer : ParseBuffer} (valid : buffer.Valid) {count size : Nat}
    (inside : buffer.offset + size ≤ buffer.length) :
    Returns (numberRun buffer count size) (fun result => buffer.offset + result ≤ buffer.length) := by
  induction count generalizing size with
  | zero => exact Returns.ok inside
  | succ count hypothesis =>
      unfold numberRun
      refine Returns.ite (fun _ => Returns.ok inside) ?_
      intro access
      have accessible : buffer.offset + size < buffer.length := by
        simpa [ParseBuffer.canAccessAtIndex] using access
      refine Returns.bind (valid.read_returns accessible) ?_
      intro byte _ _
      exact Returns.ite (fun _ => hypothesis (by omega)) (fun _ => Returns.ok inside)

theorem readSlice_returns {buffer : ParseBuffer} (valid : buffer.Valid) {start size : Nat}
    (inside : start + size ≤ buffer.length) :
    Returns (readSlice buffer start size) (fun slice => slice.length = size) := by
  have whole := valid.length_eq
  refine Returns.of_eq (if_pos (by omega)) ?_
  simp only [List.length_take, List.length_drop]
  omega

theorem advance_returns {buffer : ParseBuffer} {count : Nat}
    (inside : buffer.offset + count ≤ buffer.length) :
    Returns (buffer.advance count)
      (fun after => buffer.Reaches after ∧ after.offset = buffer.offset + count) :=
  seek_returns inside

theorem parseNumber_progresses {library : CLibrary} (consumes : library.ConsumesAtMost)
    {buffer : ParseBuffer} (enough : Prop) (item : Item) (valid : buffer.Valid) :
    Progresses buffer enough (parseNumber library item buffer) := by
  unfold parseNumber
  dsimp only [ParseState.buffer, ParseState.withBuffer, ParseState.requested, ParseState.deallocate]
  refine Progresses.step (numberRun_returns valid valid.offset_le) ?_
  intro size bound
  have reaches := valid.reaches_requested (size + 1)
  refine Yields.ite (fun _ => Progresses.fail reaches) ?_
  intro _
  refine Progresses.step (readSlice_returns (valid.requested _) bound) ?_
  intro slice length
  have most : (library.strtod (numberCString library slice)).2 ≤ size := by
    have consumed := consumes (numberCString library slice)
    rw [numberCString, List.length_map, length] at consumed
    exact consumed
  refine Yields.ite (fun _ => Progresses.fail reaches) ?_
  intro positive
  refine Progresses.step (advance_returns (Nat.le_trans (Nat.add_le_add_left most _) bound)) ?_
  intro after reached
  refine Progresses.succeed (reaches.trans reached.1) ?_
  rw [reached.2]
  exact Nat.lt_add_of_pos_right (Nat.pos_of_ne_zero positive)

/-! ## Values -/

/-- A literal of a few bytes, matched at the cursor and skipped.  The match is tested
before the cursor moves, so the cursor stays in front of the end. -/
theorem literal_progresses {buffer : ParseBuffer} {enough : Prop} (valid : buffer.Valid)
    (literal : Bytes) (some : 0 < literal.length) (item : Item)
    {next : Except Fault (Option Item × ParseBuffer)} (otherwise : Progresses buffer enough next) :
    Progresses buffer enough (do
      if ← canMatch buffer literal.length literal then do
        let buffer ← buffer.advance literal.length
        .ok (Option.some item, buffer)
      else next) := by
  rw [valid.canMatch_eq, Except.ok_bind]
  refine Yields.ite ?_ (fun _ => otherwise)
  intro matched
  have inside : literal.length ≤ buffer.remaining.length := by
    have lengths := congrArg List.length (eq_of_beq matched)
    rw [List.length_take] at lengths
    omega
  rw [valid.advance_eq inside, Except.ok_bind]
  exact Progresses.succeed (valid.reaches_skip inside) (Nat.lt_add_of_pos_right some)

theorem bufferSkipWhitespace_returns {buffer : ParseBuffer} (valid : buffer.Valid) :
    Returns (bufferSkipWhitespace buffer)
      (fun after => buffer.Reaches after ∧ buffer.offset ≤ after.offset ∧
        (buffer.offset < buffer.length -> after.offset < after.length)) := by
  have total := valid.remaining_length
  refine Returns.of_eq valid.bufferSkipWhitespace_eq
    ⟨valid.reaches_skip (skippedWhitespace_le _), Nat.le_add_right _ _, ?_⟩
  intro inside
  have left : buffer.remaining ≠ [] := by
    intro empty
    rw [empty, List.length_nil] at total
    omega
  have skipped := skippedWhitespace_lt left
  simp only [ParseBuffer.skip_offset, ParseBuffer.skip_length]
  omega

theorem retreat_returns {buffer : ParseBuffer} (valid : buffer.Valid) (some : 0 < buffer.offset) :
    Returns buffer.retreat
      (fun after => buffer.Reaches after ∧ after.offset + 1 = buffer.offset) := by
  have inside := valid.offset_le
  rw [ParseBuffer.retreat, if_neg (by omega)]
  refine Returns.mono (seek_returns (by omega)) ?_
  intro after reached
  exact ⟨reached.1, by omega⟩

theorem guardedByte_returns {buffer : ParseBuffer} (valid : buffer.Valid) (byte : UInt8) :
    Returns (buffer.guardedByte byte)
      (fun found => found = true -> buffer.offset < buffer.length) := by
  refine Returns.of_eq (valid.guardedByte_eq byte) ?_
  intro found
  have total := valid.remaining_length
  cases bytes : buffer.remaining with
  | nil => simp [bytes] at found
  | cons first rest =>
      rw [bytes, List.length_cons] at total
      omega

/-- What the fuel of a call has to cover, by the bytes that remain.  A byte pays for
three calls, those of a value, of its container and of the loop over the entries, and
the offsets tell which of the three is due. -/
structure EnoughFuel (library : CLibrary) (fuel : Nat) : Prop where
  value : ∀ item buffer, buffer.Valid ->
    Progresses buffer (3 * (buffer.length - buffer.offset) + 3 ≤ fuel) (parseValue library fuel item buffer)
  array : ∀ item buffer, buffer.Valid -> buffer.offset < buffer.length ->
    Progresses buffer (3 * (buffer.length - buffer.offset) + 2 ≤ fuel) (parseArray library fuel item buffer)
  arrayLoop : ∀ head buffer, buffer.Valid -> buffer.offset < buffer.length ->
    Progresses buffer (3 * (buffer.length - buffer.offset) + 1 ≤ fuel) (parseArrayLoop library fuel head buffer)
  object : ∀ item buffer, buffer.Valid -> buffer.offset < buffer.length ->
    Progresses buffer (3 * (buffer.length - buffer.offset) + 2 ≤ fuel) (parseObject library fuel item buffer)
  objectLoop : ∀ head buffer, buffer.Valid -> buffer.offset < buffer.length ->
    Progresses buffer (3 * (buffer.length - buffer.offset) + 1 ≤ fuel) (parseObjectLoop library fuel head buffer)

variable {library : CLibrary} {fuel : Nat}

theorem parseValue_progresses (consumes : library.ConsumesAtMost)
    (below : EnoughFuel library fuel) (item : Item) {buffer : ParseBuffer} (valid : buffer.Valid) :
    Progresses buffer (3 * (buffer.length - buffer.offset) + 3 ≤ fuel + 1)
      (parseValue library (fuel + 1) item buffer) := by
  unfold parseValue
  dsimp only [ParseState.buffer, ParseState.withBuffer]
  refine literal_progresses valid [0x6E, 0x75, 0x6C, 0x6C] (by decide) _ ?_
  refine literal_progresses valid [0x66, 0x61, 0x6C, 0x73, 0x65] (by decide) _ ?_
  refine literal_progresses valid [0x74, 0x72, 0x75, 0x65] (by decide) _ ?_
  refine Yields.ite (fun _ => Progresses.fail valid.reaches_self) ?_
  intro access
  have inside : buffer.offset < buffer.length := by
    simpa [ParseBuffer.canAccessAtIndex] using access
  refine Progresses.step (valid.read_returns inside) ?_
  intro byte _
  refine Yields.ite (fun _ => parseString_progresses _ item valid inside) ?_
  intro _
  refine Yields.ite (fun _ => parseNumber_progresses consumes _ item valid) ?_
  intro _
  refine Yields.ite (fun _ => ?_) ?_
  · exact Progresses.from_later valid.reaches_self (Nat.le_refl _) (by omega)
      (below.array item buffer valid inside)
  · intro _
    refine Yields.ite (fun _ => ?_) (fun _ => Progresses.fail valid.reaches_self)
    exact Progresses.from_later valid.reaches_self (Nat.le_refl _) (by omega)
      (below.object item buffer valid inside)

/-- The end of a container: the closing bracket, if it is there.  Otherwise the parse
goes on as before, which for a container means that it fails. -/
theorem closing_progresses {before buffer : ParseBuffer} {enough : Prop} (valid : before.Valid)
    (reaches : before.Reaches buffer) (further : before.offset < buffer.offset) (closing : UInt8)
    (item : Item) {next : Except Fault (Option Item × ParseBuffer)}
    (otherwise : Progresses before enough next) :
    Progresses before enough (do
      if ← buffer.guardedByte closing then do
        let buffer ← buffer.advance 1
        .ok (some item, { buffer with depth := buffer.depth - 1 })
      else next) := by
  refine Progresses.step (guardedByte_returns (reaches.valid valid) closing) ?_
  intro found inside
  refine Yields.ite ?_ (fun _ => otherwise)
  intro isClosing
  refine Progresses.step (advance_returns (Nat.succ_le_of_lt (inside isClosing))) ?_
  intro after reached
  refine Progresses.succeed ((reaches.trans reached.1).withDepth _) ?_
  simp only [reached.2]
  omega

theorem parseArrayLoop_progresses (below : EnoughFuel library fuel) (head : List Item) {buffer : ParseBuffer}
    (valid : buffer.Valid) (inside : buffer.offset < buffer.length) :
    Progresses buffer (3 * (buffer.length - buffer.offset) + 1 ≤ fuel + 1)
      (parseArrayLoop library (fuel + 1) head buffer) := by
  unfold parseArrayLoop
  dsimp only [ParseState.buffer, ParseState.withBuffer, ParseState.requested, ParseState.delete]
  refine Yields.ite (fun _ => Progresses.fail (valid.reaches_requested nodeSize)) ?_
  intro _
  refine Progresses.step (advance_returns (Nat.succ_le_of_lt inside)) ?_
  intro advanced reached
  have reachesAdvanced := (valid.reaches_requested nodeSize).trans reached.1
  refine Progresses.step (bufferSkipWhitespace_returns (reachesAdvanced.valid valid)) ?_
  intro skipped reachedSkipped
  have reachesSkipped := reachesAdvanced.trans reachedSkipped.1
  have lengthEq := reachesSkipped.length_eq
  have offsetLt : buffer.offset < skipped.offset :=
    Nat.lt_of_lt_of_le (Nat.lt_of_lt_of_eq (Nat.lt_succ_self _) reached.2.symm) reachedSkipped.2.1
  refine Progresses.call (below.value newItem skipped (reachesSkipped.valid valid)) (by omega) ?_ ?_
  · intro later reachedLater
    exact Progresses.fail (reachesSkipped.trans reachedLater)
  · intro currentItem later reachedLater further
    have reachesLater := reachesSkipped.trans reachedLater
    refine Progresses.step (bufferSkipWhitespace_returns (reachesLater.valid valid)) ?_
    intro last reachedLast
    have reachesLast := reachesLater.trans reachedLast.1
    have offsetLast : buffer.offset < last.offset := by omega
    refine Progresses.step (guardedByte_returns (reachesLast.valid valid) 0x2C) ?_
    intro found insideLast
    refine Yields.ite ?_ (fun _ => Progresses.succeed reachesLast offsetLast)
    intro isComma
    have lastLengthEq := reachesLast.length_eq
    refine Progresses.call (below.arrayLoop _ last (reachesLast.valid valid) (insideLast isComma))
      (by omega) ?_ ?_
    · intro end_ reachedEnd
      exact Progresses.fail (reachesLast.trans reachedEnd)
    · intro rest end_ reachedEnd furtherEnd
      exact Progresses.succeed (reachesLast.trans reachedEnd) (Nat.lt_trans offsetLast furtherEnd)

theorem parseArray_progresses (below : EnoughFuel library fuel) (item : Item) {buffer : ParseBuffer}
    (valid : buffer.Valid) (inside : buffer.offset < buffer.length) :
    Progresses buffer (3 * (buffer.length - buffer.offset) + 2 ≤ fuel + 1)
      (parseArray library (fuel + 1) item buffer) := by
  unfold parseArray
  dsimp only [ParseState.buffer, ParseState.withBuffer, ParseState.delete]
  refine Yields.ite (fun _ => Progresses.fail valid.reaches_self) ?_
  intro _
  have reachesDeeper := valid.reaches_self.withDepth (buffer.depth + 1)
  refine Progresses.step ((valid.withDepth _).read_returns inside) ?_
  intro byte _
  refine Yields.ite (fun _ => Progresses.fail reachesDeeper) ?_
  intro _
  refine Progresses.step (advance_returns (Nat.succ_le_of_lt inside)) ?_
  intro advanced reached
  have reachesAdvanced := reachesDeeper.trans reached.1
  refine Progresses.step (bufferSkipWhitespace_returns (reachesAdvanced.valid valid)) ?_
  intro skipped reachedSkipped
  have reachesSkipped := reachesAdvanced.trans reachedSkipped.1
  have offsetLt : buffer.offset < skipped.offset :=
    Nat.lt_of_lt_of_le (Nat.lt_of_lt_of_eq (Nat.lt_succ_self _) reached.2.symm) reachedSkipped.2.1
  have skippedValid := reachesSkipped.valid valid
  refine closing_progresses valid reachesSkipped offsetLt 0x5D _ ?_
  have stepBack := retreat_returns skippedValid (Nat.lt_of_le_of_lt (Nat.zero_le _) offsetLt)
  refine Yields.ite ?_ ?_
  · intro _
    refine Progresses.step stepBack ?_
    intro back reachedBack
    exact Progresses.fail (reachesSkipped.trans reachedBack.1)
  · intro access
    refine Progresses.step stepBack ?_
    intro back reachedBack
    have reachesBack := reachesSkipped.trans reachedBack.1
    have lengthEq := reachesBack.length_eq
    have notAtEnd : skipped.offset < skipped.length := by
      simpa [ParseBuffer.canAccessAtIndex] using access
    have skippedLength := reachesSkipped.length_eq
    refine Progresses.call (below.arrayLoop _ back (reachesBack.valid valid) (by omega))
      (by omega) ?_ ?_
    · intro later reachedLater
      exact Progresses.fail (reachesBack.trans reachedLater)
    · intro children later reachedLater further
      have reachesLater := reachesBack.trans reachedLater
      exact closing_progresses valid reachesLater (by omega) 0x5D _ (Progresses.fail reachesLater)

theorem parseObjectLoop_progresses (below : EnoughFuel library fuel) (head : List Item) {buffer : ParseBuffer}
    (valid : buffer.Valid) (inside : buffer.offset < buffer.length) :
    Progresses buffer (3 * (buffer.length - buffer.offset) + 1 ≤ fuel + 1)
      (parseObjectLoop library (fuel + 1) head buffer) := by
  unfold parseObjectLoop
  dsimp only [ParseState.buffer, ParseState.withBuffer, ParseState.requested, ParseState.delete]
  have reachesRequested := valid.reaches_requested nodeSize
  refine Yields.ite (fun _ => Progresses.fail reachesRequested) ?_
  intro _
  refine Yields.ite (fun _ => Progresses.fail reachesRequested) ?_
  intro access
  have accessible : (buffer.requested nodeSize).canAccessAtIndex 1 = true := by simpa using access
  have oneMore : buffer.offset + 1 < buffer.length := of_decide_eq_true accessible
  refine Progresses.step (advance_returns (Nat.succ_le_of_lt inside)) ?_
  intro advanced reached
  have reachesAdvanced := reachesRequested.trans reached.1
  refine Progresses.step (bufferSkipWhitespace_returns (reachesAdvanced.valid valid)) ?_
  intro skipped reachedSkipped
  have reachesSkipped := reachesAdvanced.trans reachedSkipped.1
  have advancedOffset : advanced.offset = buffer.offset + 1 := reached.2
  have advancedLength := reachesAdvanced.length_eq
  have skippedLength := reachesSkipped.length_eq
  -- the name is read without a guard: a byte is left because one was left before the skip
  have nameInside : skipped.offset < skipped.length := reachedSkipped.2.2 (by omega)
  refine Progresses.call (parseString_progresses True newItem
    (reachesSkipped.valid valid) nameInside) (fun _ => trivial) ?_ ?_
  · intro later reachedLater
    exact Progresses.fail (reachesSkipped.trans reachedLater)
  intro named afterName reachedName furtherName
  have reachesName := reachesSkipped.trans reachedName
  refine Progresses.step (bufferSkipWhitespace_returns (reachesName.valid valid)) ?_
  intro colon reachedColon
  have reachesColon := reachesName.trans reachedColon.1
  refine Progresses.step (guardedByte_returns (reachesColon.valid valid) 0x3A) ?_
  intro isColon insideColon
  refine Yields.ite (fun _ => Progresses.fail reachesColon) ?_
  intro colonFound
  have colonInside := insideColon (by simpa using colonFound)
  refine Progresses.step (advance_returns (Nat.succ_le_of_lt colonInside)) ?_
  intro behind reachedBehind
  have reachesBehind := reachesColon.trans reachedBehind.1
  refine Progresses.step (bufferSkipWhitespace_returns (reachesBehind.valid valid)) ?_
  intro start reachedStart
  have reachesStart := reachesBehind.trans reachedStart.1
  have startLength := reachesStart.length_eq
  have behindOffset : behind.offset = colon.offset + 1 := reachedBehind.2
  have startOffset : buffer.offset + 1 ≤ start.offset := by omega
  refine Progresses.call (below.value (swapName named) start (reachesStart.valid valid))
    (by omega) ?_ ?_
  · intro later reachedLater
    exact Progresses.fail (reachesStart.trans reachedLater)
  · intro currentItem later reachedLater further
    have reachesLater := reachesStart.trans reachedLater
    refine Progresses.step (bufferSkipWhitespace_returns (reachesLater.valid valid)) ?_
    intro last reachedLast
    have reachesLast := reachesLater.trans reachedLast.1
    have offsetLast : buffer.offset < last.offset := by omega
    refine Progresses.step (guardedByte_returns (reachesLast.valid valid) 0x2C) ?_
    intro found insideLast
    refine Yields.ite ?_ (fun _ => Progresses.succeed reachesLast offsetLast)
    intro isComma
    have lastLengthEq := reachesLast.length_eq
    refine Progresses.call (below.objectLoop _ last (reachesLast.valid valid) (insideLast isComma))
      (by omega) ?_ ?_
    · intro end_ reachedEnd
      exact Progresses.fail (reachesLast.trans reachedEnd)
    · intro rest end_ reachedEnd furtherEnd
      exact Progresses.succeed (reachesLast.trans reachedEnd) (Nat.lt_trans offsetLast furtherEnd)

theorem parseObject_progresses (below : EnoughFuel library fuel) (item : Item)
    {buffer : ParseBuffer} (valid : buffer.Valid) (inside : buffer.offset < buffer.length) :
    Progresses buffer (3 * (buffer.length - buffer.offset) + 2 ≤ fuel + 1)
      (parseObject library (fuel + 1) item buffer) := by
  unfold parseObject
  dsimp only [ParseState.buffer, ParseState.withBuffer, ParseState.delete]
  refine Yields.ite (fun _ => Progresses.fail valid.reaches_self) ?_
  intro _
  have reachesDeeper := valid.reaches_self.withDepth (buffer.depth + 1)
  refine Progresses.step (guardedByte_returns (valid.withDepth _) 0x7B) ?_
  intro _ _
  refine Yields.ite (fun _ => Progresses.fail reachesDeeper) ?_
  intro _
  refine Progresses.step (advance_returns (Nat.succ_le_of_lt inside)) ?_
  intro advanced reached
  have reachesAdvanced := reachesDeeper.trans reached.1
  refine Progresses.step (bufferSkipWhitespace_returns (reachesAdvanced.valid valid)) ?_
  intro skipped reachedSkipped
  have reachesSkipped := reachesAdvanced.trans reachedSkipped.1
  have offsetLt : buffer.offset < skipped.offset :=
    Nat.lt_of_lt_of_le (Nat.lt_of_lt_of_eq (Nat.lt_succ_self _) reached.2.symm) reachedSkipped.2.1
  have skippedValid := reachesSkipped.valid valid
  refine closing_progresses valid reachesSkipped offsetLt 0x7D _ ?_
  have stepBack := retreat_returns skippedValid (Nat.lt_of_le_of_lt (Nat.zero_le _) offsetLt)
  refine Yields.ite ?_ ?_
  · intro _
    refine Progresses.step stepBack ?_
    intro back reachedBack
    exact Progresses.fail (reachesSkipped.trans reachedBack.1)
  · intro access
    refine Progresses.step stepBack ?_
    intro back reachedBack
    have reachesBack := reachesSkipped.trans reachedBack.1
    have lengthEq := reachesBack.length_eq
    have notAtEnd : skipped.offset < skipped.length := by
      simpa [ParseBuffer.canAccessAtIndex] using access
    have skippedLength := reachesSkipped.length_eq
    refine Progresses.call (below.objectLoop _ back (reachesBack.valid valid) (by omega))
      (by omega) ?_ ?_
    · intro later reachedLater
      exact Progresses.fail (reachesBack.trans reachedLater)
    · intro children later reachedLater further
      have reachesLater := reachesBack.trans reachedLater
      exact closing_progresses valid reachesLater (by omega) 0x7D _ (Progresses.fail reachesLater)

/-- Every call with its fuel: the induction over the fuel that ties the five
functions together. -/
theorem enoughFuel (consumes : library.ConsumesAtMost) (fuel : Nat) : EnoughFuel library fuel := by
  induction fuel with
  | zero =>
      refine ⟨?_, ?_, ?_, ?_, ?_⟩
      · intro item buffer _
        exact Progresses.outOfFuel (by omega)
      · intro item buffer _ _
        exact Progresses.outOfFuel (by omega)
      · intro head buffer _ _
        exact Progresses.outOfFuel (by omega)
      · intro item buffer _ _
        exact Progresses.outOfFuel (by omega)
      · intro head buffer _ _
        exact Progresses.outOfFuel (by omega)
  | succ fuel below =>
      refine ⟨?_, ?_, ?_, ?_, ?_⟩
      · intro item buffer valid
        exact parseValue_progresses consumes below item valid
      · intro item buffer valid inside
        exact parseArray_progresses below item valid inside
      · intro head buffer valid inside
        exact parseArrayLoop_progresses below head valid inside
      · intro item buffer valid inside
        exact parseObject_progresses below item valid inside
      · intro head buffer valid inside
        exact parseObjectLoop_progresses below head valid inside

/-! ## Whole runs -/

theorem skipUtf8Bom_returns {buffer : ParseBuffer} (valid : buffer.Valid) :
    Returns (skipUtf8Bom buffer) (fun result => ∀ after, result = some after -> buffer.Reaches after) := by
  unfold skipUtf8Bom
  refine Returns.ite (fun _ => Returns.ok (by simp)) ?_
  intro _
  have unchanged : Returns (.ok (some buffer) : Except Fault (Option ParseBuffer))
      (fun result => ∀ after, result = some after -> buffer.Reaches after) :=
    Returns.ok (fun after same => Option.some.inj same ▸ valid.reaches_self)
  refine Returns.ite ?_ (fun _ => unchanged)
  intro access
  have inside : buffer.offset + 4 < buffer.length := by
    simpa [ParseBuffer.canAccessAtIndex] using access
  refine Returns.bind (readSlice_returns valid (by omega)) ?_
  intro mark _ _
  refine Returns.ite ?_ (fun _ => unchanged)
  intro _
  refine Returns.bind (advance_returns (by omega)) ?_
  intro after _ reached
  exact Returns.ok (fun other same => Option.some.inj same ▸ reached.1)

theorem endsInNul_returns {buffer : ParseBuffer} (valid : buffer.Valid) :
    Returns (endsInNul buffer) (fun _ => True) := by
  refine Returns.ite (fun _ => Returns.ok trivial) ?_
  intro inside
  refine Returns.bind (valid.read_returns (by omega)) ?_
  intro byte _ _
  exact Returns.ok trivial

/-- Where a call of the parser on `length` bytes leaves its caller: at an error inside
the text, or at an end of the text that may be the end of the buffer. -/
def ParseOutcome.Within (outcome : ParseOutcome) (length : Nat) : Prop :=
  match outcome.item with
  | none => ∃ position < length, outcome.errorPosition = some position ∧ outcome.parseEnd < length
  | some _ => outcome.errorPosition = none ∧ outcome.parseEnd ≤ length

theorem finishParseFailure_within {buffer : ParseBuffer} {length : Nat}
    (lengthEq : buffer.length = length) (some : 0 < length) :
    (finishParseFailure buffer).Within length := by
  have position : (if buffer.offset < buffer.length then buffer.offset
      else if 0 < buffer.length then buffer.length - 1 else 0) < length := by
    split
    · omega
    · split <;> omega
  exact ⟨_, position, rfl, position⟩

theorem cjsonParseWithLengthOpts_returns (consumes : library.ConsumesAtMost) (hooks : Hooks)
    {content : Bytes} (some : content ≠ []) (requireNullTerminated : Bool) :
    Returns (cjsonParseWithLengthOpts library hooks content content.length requireNullTerminated)
      (fun outcome => outcome.Within content.length) := by
  have positive : 0 < content.length := List.length_pos_of_ne_nil some
  have valid : ParseBuffer.Valid ⟨content, content.length, 0, 0, hooks⟩ := ⟨rfl, Nat.zero_le _⟩
  have within : ∀ {found : Option Item} {buffer : ParseBuffer},
      ParseBuffer.Reaches ⟨content, content.length, 0, 0, hooks⟩ buffer ->
      Returns (.ok (found, buffer) : Except Fault (Option Item × ParseBuffer))
        (fun result => (outcomeOf result).Within content.length) := by
    intro found buffer reaches
    cases found with
    | none => exact Returns.ok (finishParseFailure_within reaches.length_eq positive)
    | some item =>
        have lengthEq : buffer.length = content.length := reaches.length_eq
        exact Returns.ok ⟨rfl, lengthEq ▸ reaches.offset_le⟩
  suffices ends : Returns (parseDocument library requireNullTerminated
      (⟨content, content.length, 0, 0, hooks⟩ : ParseBuffer))
      (fun result => (outcomeOf result).Within content.length) from
    ends.bind fun result _ holds => Returns.ok holds
  unfold parseDocument
  dsimp only [ParseState.buffer, ParseState.withBuffer, ParseState.requested, ParseState.delete]
  rw [if_neg (Nat.pos_iff_ne_zero.mp positive)]
  have reachesRequested := valid.reaches_requested nodeSize
  refine Returns.ite (fun _ => within reachesRequested) ?_
  intro _
  refine Returns.bind (skipUtf8Bom_returns (valid.requested nodeSize)) ?_
  intro marked _ reachedMarked
  cases marked with
  | none => exact within reachesRequested
  | some marked =>
      have reachesMarked := reachesRequested.trans (reachedMarked marked rfl)
      refine Returns.bind (bufferSkipWhitespace_returns (reachesMarked.valid valid)) ?_
      intro start _ reachedStart
      have reachesStart := reachesMarked.trans reachedStart.1
      have startLength : start.length = content.length := reachesStart.length_eq
      have parsed := (enoughFuel consumes (parseFuel content.length)).value newItem start
        (reachesStart.valid valid)
      refine Returns.bind (parsed.returns ?_) ?_
      · rintro fault ⟨_, short⟩
        exact short (by rw [parseFuel, startLength]; omega)
      intro result _ reached
      rcases result with ⟨item, after⟩
      have reachesAfter := reachesStart.trans reached.1
      cases item with
      | none => exact within reachesAfter
      | some item =>
          refine Returns.ite ?_ (fun _ => within reachesAfter)
          intro _
          refine Returns.bind (bufferSkipWhitespace_returns (reachesAfter.valid valid)) ?_
          intro last _ reachedLast
          have reachesLast := reachesAfter.trans reachedLast.1
          refine Returns.bind (endsInNul_returns (reachesLast.valid valid)) ?_
          intro terminated _ _
          exact Returns.ite (fun _ => within reachesLast) (fun _ => within reachesLast)

/-- A call that succeeds leaves the cursor further on, and in the buffer. -/
def StepsForward (before : ParseBuffer) (run : Except Fault (Option Item × ParseBuffer)) : Prop :=
  ∀ item after, run = .ok (some item, after) ->
    before.offset < after.offset ∧ after.offset ≤ before.length

theorem Progresses.stepsForward {before : ParseBuffer} {enough : Prop}
    {run : Except Fault (Option Item × ParseBuffer)} (progresses : Progresses before enough run) :
    StepsForward before run := by
  intro item after ends
  have reached := Yields.elim progresses ends
  exact ⟨reached.2 (Option.some_ne_none item), reached.1.length_eq ▸ reached.1.offset_le⟩

/-- Nothing that needs a first byte succeeds at the end of the buffer. -/
theorem stepsForward_of_inside {buffer : ParseBuffer} {enough : Prop}
    {run : Except Fault (Option Item × ParseBuffer)} (valid : buffer.Valid)
    (inside : buffer.offset < buffer.length -> Progresses buffer enough run)
    (atEnd : buffer.remaining = [] -> ∀ item after, run ≠ .ok (some item, after)) :
    StepsForward buffer run := by
  by_cases more : buffer.offset < buffer.length
  · exact (inside more).stepsForward
  · intro item after ends
    have total := valid.remaining_length
    exact absurd ends (atEnd (List.length_eq_zero_iff.mp (by omega)) item after)

theorem read_at_end {buffer : ParseBuffer} (empty : buffer.remaining = []) :
    buffer.read buffer.offset = .error .outOfBounds := by
  have missing : buffer.content[buffer.offset]? = none :=
    List.getElem?_eq_none (List.drop_eq_nil_iff.mp empty)
  rw [ParseBuffer.read, missing]

theorem parseString_stepsForward (item : Item) {buffer : ParseBuffer} (valid : buffer.Valid) :
    StepsForward buffer (parseString item buffer) := by
  refine stepsForward_of_inside valid (parseString_progresses True item valid) ?_
  intro empty found after ends
  rw [parseString_eq, parseStringBytes, parseStringWith] at ends
  dsimp only [ParseState.buffer] at ends
  rw [read_at_end empty] at ends
  cases ends

theorem parseArray_stepsForward (consumes : library.ConsumesAtMost) (fuel : Nat) (item : Item)
    {buffer : ParseBuffer} (valid : buffer.Valid) :
    StepsForward buffer (parseArray library fuel item buffer) := by
  refine stepsForward_of_inside valid ((enoughFuel consumes fuel).array item buffer valid) ?_
  intro empty found after ends
  cases fuel with
  | zero => cases ends
  | succ fuel =>
      have missing : ParseBuffer.read { buffer with depth := buffer.depth + 1 } buffer.offset =
          .error .outOfBounds :=
        @read_at_end { buffer with depth := buffer.depth + 1 } empty
      unfold parseArray at ends
      dsimp only [ParseState.buffer] at ends
      by_cases deep : nestingLimit ≤ buffer.depth
      · rw [if_pos deep] at ends
        cases ends
      · rw [if_neg deep] at ends
        simp only [missing] at ends
        cases ends

theorem parseObject_stepsForward (consumes : library.ConsumesAtMost) (fuel : Nat) (item : Item)
    {buffer : ParseBuffer} (valid : buffer.Valid) :
    StepsForward buffer (parseObject library fuel item buffer) := by
  refine stepsForward_of_inside valid ((enoughFuel consumes fuel).object item buffer valid) ?_
  intro empty found after ends
  cases fuel with
  | zero => cases ends
  | succ fuel =>
      have missing : ParseBuffer.guardedByte { buffer with depth := buffer.depth + 1 } 0x7B =
          .ok false := by
        have bytes : ParseBuffer.remaining { buffer with depth := buffer.depth + 1 } = [] := empty
        rw [(valid.withDepth _).guardedByte_eq, bytes]
        rfl
      unfold parseObject at ends
      dsimp only [ParseState.buffer] at ends
      by_cases deep : nestingLimit ≤ buffer.depth
      · rw [if_pos deep] at ends
        cases ends
      · rw [if_neg deep] at ends
        simp only [missing] at ends
        cases ends

/-- The parser on a buffer of at least one byte ends without a fault: it reads
inside the buffer, its cursor stays between 0 and the length, and its recursion
is covered by a budget linear in the length.  Error positions are inside the
buffer, the end of a parse is inside or at its end.  On any buffer with this
content, and with any fuel, a successful call moves the cursor forward. -/
theorem parse_stays_inside (library : CLibrary) (consumes : library.ConsumesAtMost) (hooks : Hooks)
    (content : Bytes) (some : content ≠ []) (requireNullTerminated : Bool) :
    Returns (cjsonParseWithLengthOpts library hooks content content.length requireNullTerminated)
      (fun outcome => outcome.Within content.length) ∧
    ∀ (fuel : Nat) (item : Item) (buffer : ParseBuffer), buffer.content = content ->
      buffer.length = content.length -> buffer.offset ≤ content.length ->
      StepsForward buffer (parseValue library fuel item buffer) ∧
      StepsForward buffer (parseArray library fuel item buffer) ∧
      StepsForward buffer (parseObject library fuel item buffer) ∧
      StepsForward buffer (parseString item buffer) ∧
      StepsForward buffer (parseNumber library item buffer) := by
  refine ⟨cjsonParseWithLengthOpts_returns consumes hooks some requireNullTerminated, ?_⟩
  intro fuel item buffer contentEq lengthEq offsetLe
  have valid : buffer.Valid := ⟨by rw [lengthEq, contentEq], by rw [lengthEq]; exact offsetLe⟩
  refine ⟨((enoughFuel consumes fuel).value item buffer valid).stepsForward,
    parseArray_stepsForward consumes fuel item valid,
    parseObject_stepsForward consumes fuel item valid,
    parseString_stepsForward item valid, ?_⟩
  exact (parseNumber_progresses consumes True item valid).stepsForward

/-- A `strtod` that reads decimal digits, with or without a sign. -/
def decimalStrtod (run : Bytes) : Binary64 × Nat :=
  if run.head? = some 0x2D ∧ leadingDigits run.tail ≠ [] then
    (.ofInt (-(digitsValue (leadingDigits run.tail) : Int)), (leadingDigits run.tail).length + 1)
  else (.ofInt (digitsValue (leadingDigits run) : Int), (leadingDigits run).length)

/-- A C library with this `strtod`, whose `snprintf` prints integers. -/
def decimalLibrary : CLibrary where
  decimalPoint := 0x2E
  strtod := decimalStrtod
  formatG _ number := decimalText (number.toInt (-2 ^ 53) (2 ^ 53))
  formatG_nulFree _ _ := zero_not_mem_decimalText _

theorem decimalLibrary_consumesAtMost : decimalLibrary.ConsumesAtMost := by
  intro run
  show (decimalStrtod run).2 ≤ run.length
  unfold decimalStrtod
  by_cases signed : run.head? = some 0x2D ∧ leadingDigits run.tail ≠ []
  · rw [if_pos signed]
    cases run with
    | nil => exact absurd signed.1 (by decide)
    | cons byte run => exact Nat.succ_le_succ (leadingDigits_length_le run)
  · rw [if_neg signed]
    exact leadingDigits_length_le run

/-- The text `[1, ` ends inside an array. -/
theorem parse_stays_inside_truncated :
    decimalLibrary.ConsumesAtMost ∧
    Returns (cjsonParseWithLengthOpts decimalLibrary ⟨fun _ _ => true, true⟩
        [0x5B, 0x31, 0x2C, 0x20] 4 true)
      (fun outcome => outcome.Within 4) := by
  exact ⟨decimalLibrary_consumesAtMost, (parse_stays_inside decimalLibrary
    decimalLibrary_consumesAtMost ⟨fun _ _ => true, true⟩ [0x5B, 0x31, 0x2C, 0x20] (by decide) true).1⟩

end CJson
