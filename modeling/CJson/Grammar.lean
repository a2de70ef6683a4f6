import CJson.Token

/-!
# The grammar the parser accepts

`Derives` is the context-free grammar behind `parse_value`, `parse_array` and
`parse_object`, with the tokens of the last module as terminals.  A derivation
carries the items that the parser builds, so it fixes the tree as well as the
text; `limit` is the number of containers that may still be opened.

The parser is sound and complete for it: what it reads has a derivation with
the item it returns, and a text with a derivation is read to its end.
-/

namespace CJson

open CString ParseBuffer

/-- Whitespace, as the parser sees it: bytes up to 32.  This is more than JSON allows,
and the terminator is one of them. -/
def Blank (text : Bytes) : Prop := ∀ byte ∈ text, byte ≤ 32

/-- The two kinds of nodes with children.  Arrays and objects are parsed by functions
of the same shape, and most of what is proved of one holds of the other with its
brackets. -/
inductive Container where
  | array
  | object
  deriving DecidableEq

namespace Container

def opening : Container -> UInt8
  | array => 0x5B
  | object => 0x7B

def closing : Container -> UInt8
  | array => 0x5D
  | object => 0x7D

def base : Container -> BaseType
  | array => .array
  | object => .object

end Container

/-- The nonterminals: a value under a name, one entry of a container, and one
entry or more, separated by commas. -/
inductive Phrase where
  | value (name : Option Bytes)
  | entry (kind : Container)
  | entries (kind : Container)

/-- A zeroed node with a name. -/
def named (name : Option Bytes) : Item :=
  .mk { type_ := { base := .invalid }, string := name } [] .null

/-- `limit` containers may be nested in the text.  The derivations follow the grammar
of RFC 8259 and say which tree a text denotes; they know nothing of cursors or
memory.  A number begins with a digit or a minus sign, and what is a number is left to
the C library, as in the source. -/
inductive Derives (library : CLibrary) : Phrase -> Nat -> Bytes -> List Item -> Prop where
  | null {name : Option Bytes} {limit : Nat} :
      Derives library (.value name) limit [0x6E, 0x75, 0x6C, 0x6C]
        [setLiteral (named name) .null 0]
  | false {name : Option Bytes} {limit : Nat} :
      Derives library (.value name) limit [0x66, 0x61, 0x6C, 0x73, 0x65]
        [setLiteral (named name) .false 0]
  | true {name : Option Bytes} {limit : Nat} :
      Derives library (.value name) limit [0x74, 0x72, 0x75, 0x65]
        [setLiteral (named name) .true 1]
  | string {name : Option Bytes} {limit : Nat} {token output : Bytes}
      (accepted : StringToken token output) :
      Derives library (.value name) limit token [setString (named name) output]
  | number {name : Option Bytes} {limit : Nat} {first : UInt8} {token : Bytes} {number : Binary64}
      (start : first = 0x2D ∨ (48 ≤ first ∧ first ≤ 57))
      (accepted : NumberToken library (first :: token) number) :
      Derives library (.value name) limit (first :: token) [setNumber (named name) number]
  | empty {name : Option Bytes} {limit : Nat} (kind : Container) {space : Bytes}
      (blank : Blank space) :
      Derives library (.value name) (limit + 1) (kind.opening :: (space ++ [kind.closing]))
        [finishContainer (named name) kind.base []]
  | filled {name : Option Bytes} {limit : Nat} (kind : Container) {space text : Bytes}
      {items : List Item} (blank : Blank space) :
      Derives library (.entries kind) limit text items ->
      Derives library (.value name) (limit + 1) (kind.opening :: (space ++ (text ++ [kind.closing])))
        [finishContainer (named name) kind.base items]
  | element {limit : Nat} {text : Bytes} {item : Item} :
      Derives library (.value none) limit text [item] ->
      Derives library (.entry .array) limit text [item]
  | member {limit : Nat} {token key space gap text : Bytes} {item : Item}
      (accepted : StringToken token key) (blankSpace : Blank space) (blankGap : Blank gap) :
      Derives library (.value (some key)) limit text [item] ->
      Derives library (.entry .object) limit (token ++ (space ++ 0x3A :: (gap ++ text))) [item]
  | last {kind : Container} {limit : Nat} {text space : Bytes} {item : Item}
      (blank : Blank space) :
      Derives library (.entry kind) limit text [item] ->
      Derives library (.entries kind) limit (text ++ space) [item]
  | more {kind : Container} {limit : Nat} {text space gap rest : Bytes} {item : Item}
      {items : List Item} (blankSpace : Blank space) (blankGap : Blank gap) :
      Derives library (.entry kind) limit text [item] ->
      Derives library (.entries kind) limit rest items ->
      Derives library (.entries kind) limit (text ++ (space ++ 0x2C :: (gap ++ rest)))
        (item :: items)

/-! ## Whitespace between tokens -/

theorem Blank.tail {byte : UInt8} {text : Bytes} (blank : Blank (byte :: text)) : Blank text :=
  fun other inside => blank other (List.mem_cons_of_mem _ inside)

theorem blank_nil : Blank [] := by
  intro byte inside
  cases inside

/-- Whitespace in front of a token is skipped, and nothing else. -/
theorem skippedWhitespace_blank {space : Bytes} {first : UInt8} {rest : Bytes} (blank : Blank space)
    (token : 32 < first) : skippedWhitespace (space ++ first :: rest) = space.length := by
  induction space with
  | nil =>
      cases rest with
      | nil => rfl
      | cons next rest =>
          exact if_neg (UInt8.not_le.mpr token)
  | cons byte space hypothesis =>
      have small : byte ≤ 32 := blank byte List.mem_cons_self
      have step : skippedWhitespace (byte :: (space ++ first :: rest)) =
          skippedWhitespace (space ++ first :: rest) + 1 := by
        cases space with
        | nil => exact if_pos small
        | cons next space => exact if_pos small
      rw [List.cons_append, step, hypothesis blank.tail, List.length_cons]

/-- What is skipped is whitespace. -/
theorem blank_take_skipped (bytes : Bytes) : Blank (bytes.take (skippedWhitespace bytes)) := by
  induction bytes using skippedWhitespace.induct with
  | case1 => exact blank_nil
  | case2 byte => exact blank_nil
  | case3 byte next rest small hypothesis =>
      rw [skippedWhitespace, if_pos small, List.take_succ_cons]
      intro other inside
      rcases List.mem_cons.mp inside with rfl | inside
      · exact small
      · exact hypothesis other inside
  | case4 byte next rest large =>
      rw [skippedWhitespace, if_neg large]
      exact blank_nil

theorem not_isNumberByte_of_le {byte : UInt8} (small : byte ≤ 32) : isNumberByte byte = false := by
  have bound : byte.toNat ≤ 32 := UInt8.le_iff_toNat_le.mp small
  simp [isNumberByte, UInt8.le_iff_toNat_le, ← UInt8.toNat_inj]
  omega

/-- Whitespace and then a byte that is not part of a number. -/
theorem endsNumber_blank {space rest : Bytes} {first : UInt8} (blank : Blank space)
    (stops : isNumberByte first = false) : EndsNumber (space ++ first :: rest) := by
  intro byte head
  cases space with
  | nil =>
      cases head
      exact stops
  | cons other space =>
      cases head
      exact not_isNumberByte_of_le (blank byte List.mem_cons_self)

/-! ## The functions by kind

`parse_array` and `parse_object` share their shape.  The equations below put
both in one form, over the kind of the container. -/

/-- What the loop body reads between a comma and the next: a value in an array; a
name, a colon and a value in an object. -/
def parseEntry (library : CLibrary) (fuel : Nat) :
    Container -> ParseBuffer -> Except Fault (Option Item × ParseBuffer)
  | .array, buffer => parseValue library fuel newItem buffer
  | .object, buffer => do
      match ← parseString newItem buffer with
      | (none, buffer) => .ok (none, buffer)
      | (some name, buffer) => do
          let buffer ← bufferSkipWhitespace buffer
          if !(← buffer.guardedByte 0x3A) then .ok (none, buffer)
          else do
            let buffer ← buffer.advance 1
            let buffer ← bufferSkipWhitespace buffer
            parseValue library fuel (swapName name) buffer

/-- The two loops. -/
def parseEntries (library : CLibrary) :
    Container -> Nat -> ParseBuffer -> Except Fault (Option (List Item) × ParseBuffer)
  | .array, fuel, buffer => parseArrayLoop library fuel [] buffer
  | .object, fuel, buffer => parseObjectLoop library fuel [] buffer

/-- The two container parsers. -/
def parseContainer (library : CLibrary) :
    Container -> Nat -> Item -> ParseBuffer -> Except Fault (Option Item × ParseBuffer)
  | .array => parseArray library
  | .object => parseObject library

/-- What stands before the cursor has no influence on what the loop reads. -/
theorem parseArrayLoop_head {library : CLibrary} {fuel : Nat} (head : List Item) (buffer : ParseBuffer) :
    parseArrayLoop library fuel head buffer = parseArrayLoop library fuel [] buffer := by
  induction fuel generalizing head buffer with
  | zero => rfl
  | succ fuel hypothesis =>
      have same : ∀ item buffer, parseArrayLoop library fuel (head ++ [item]) buffer =
          parseArrayLoop library fuel [item] buffer :=
        fun item buffer => (hypothesis _ buffer).trans (hypothesis [item] buffer).symm
      rw [parseArrayLoop, parseArrayLoop]
      simp only [ParseState.delete, same, List.nil_append]

theorem parseObjectLoop_head {library : CLibrary} {fuel : Nat} (head : List Item) (buffer : ParseBuffer) :
    parseObjectLoop library fuel head buffer = parseObjectLoop library fuel [] buffer := by
  induction fuel generalizing head buffer with
  | zero => rfl
  | succ fuel hypothesis =>
      have same : ∀ item buffer, parseObjectLoop library fuel (head ++ [item]) buffer =
          parseObjectLoop library fuel [item] buffer :=
        fun item buffer => (hypothesis _ buffer).trans (hypothesis [item] buffer).symm
      rw [parseObjectLoop, parseObjectLoop]
      simp only [ParseState.delete, same, List.nil_append]

/-- What the loops do with an entry: read on behind a comma, and stop at anything
else.  Whether it is the closing bracket is looked at later. -/
def continueEntries (library : CLibrary) (kind : Container) (fuel : Nat) :
    Option Item × ParseBuffer -> Except Fault (Option (List Item) × ParseBuffer)
  | (none, buffer) => .ok (none, buffer)
  | (some item, buffer) => do
      let buffer ← bufferSkipWhitespace buffer
      if ← buffer.guardedByte 0x2C then do
        let (rest, buffer) ← parseEntries library kind fuel buffer
        .ok (rest.map (item :: ·), buffer)
      else .ok (some [item], buffer)

/-- The end of a container, behind its entries: the closing bracket, and one level of
depth less.  Without the bracket there is no item. -/
def finishEntries (kind : Container) (item : Item) :
    Option (List Item) × ParseBuffer -> Except Fault (Option Item × ParseBuffer)
  | (none, buffer) => .ok (none, buffer)
  | (some children, buffer) => do
      if ← buffer.guardedByte kind.closing then do
        let buffer ← buffer.advance 1
        .ok (some (finishContainer item kind.base children), { buffer with depth := buffer.depth - 1 })
      else .ok (none, buffer)

section Equations

variable {library : CLibrary} {buffer : ParseBuffer} {fuel : Nat}

/-- Both loops: step over the byte before the entry, read it, and go on.  The byte is
the opening bracket in the first round and a comma in every later one. -/
theorem parseEntries_eq (kind : Container) (valid : buffer.Valid) {prior : UInt8} {rest : Bytes}
    (bytes : buffer.remaining = prior :: rest) (more : kind = .object -> rest ≠ [])
    (granted : buffer.granted nodeSize = true) :
    parseEntries library kind (fuel + 1) buffer =
      parseEntry library fuel kind ((buffer.requested nodeSize).skip (1 + skippedWhitespace rest)) >>=
        continueEntries library kind fuel := by
  have inside : 1 ≤ (buffer.requested nodeSize).remaining.length := by
    show 1 ≤ buffer.remaining.length
    simp [bytes]
  have requestedValid := valid.requested nodeSize
  have left : ((buffer.requested nodeSize).skip 1).remaining = rest := by
    rw [remaining_skip]
    show buffer.remaining.drop 1 = rest
    rw [bytes]
    rfl
  have spaced := (requestedValid.skip inside).bufferSkipWhitespace_eq
  rw [left, skip_skip] at spaced
  cases kind with
  | array =>
      show parseArrayLoop library (fuel + 1) [] buffer = _
      unfold parseArrayLoop
      simp only [parseArrayLoop_head ([] ++ [_])]
      dsimp only [ParseState.buffer, ParseState.withBuffer, ParseState.requested, ParseState.delete]
      rw [if_neg (by simp [granted]), requestedValid.advance_eq inside, Except.ok_bind, spaced, Except.ok_bind]
      show (parseValue library fuel newItem _ >>= _) = (parseValue library fuel newItem _ >>= _)
      congr 1
      funext result
      rcases result with ⟨_ | item, after⟩ <;> rfl
  | object =>
      show parseObjectLoop library (fuel + 1) [] buffer = _
      have access : (buffer.requested nodeSize).canAccessAtIndex 1 = true := by
        rw [requestedValid.canAccess_eq]
        show decide (1 < buffer.remaining.length) = true
        have positive := List.length_pos_of_ne_nil (more rfl)
        rw [bytes, List.length_cons]
        exact decide_eq_true (by omega)
      unfold parseObjectLoop
      simp only [parseObjectLoop_head ([] ++ [_])]
      dsimp only [ParseState.buffer, ParseState.withBuffer, ParseState.requested, ParseState.delete]
      rw [if_neg (by simp [granted]), if_neg (by simp [access]), requestedValid.advance_eq inside,
        Except.ok_bind, spaced, Except.ok_bind]
      show _ = (parseString newItem _ >>= _) >>= _
      rw [bind_assoc]
      show (parseString newItem _ >>= _) = _
      congr 1
      funext result
      rcases result with ⟨_ | name, after⟩
      · rfl
      show (bufferSkipWhitespace after >>= _) = (bufferSkipWhitespace after >>= _) >>= _
      rw [bind_assoc]
      congr 1
      funext spaced
      show _ = (spaced.guardedByte 0x3A >>= _) >>= _
      rw [bind_assoc]
      congr 1
      funext colon
      cases colon with
      | false => rfl
      | true =>
          show (spaced.advance 1 >>= _) = (spaced.advance 1 >>= _) >>= _
          rw [bind_assoc]
          congr 1
          funext behind
          show (bufferSkipWhitespace behind >>= _) = (bufferSkipWhitespace behind >>= _) >>= _
          rw [bind_assoc]
          congr 1
          funext start
          show (parseValue library fuel (swapName name) start >>= _) =
            (parseValue library fuel (swapName name) start >>= _)
          congr 1
          funext value
          rcases value with ⟨_ | item, last⟩ <;> rfl

/-- Both containers: an empty one, or the loop from the byte before the first
entry on. -/
theorem parseContainer_eq (kind : Container) (item : Item) (valid : buffer.Valid) {rest : Bytes}
    (bytes : buffer.remaining = kind.opening :: rest) (more : rest ≠ [])
    (shallow : buffer.depth < nestingLimit) :
    parseContainer library kind (fuel + 1) item buffer =
      if (rest.drop (skippedWhitespace rest)).head? == some kind.closing then
        .ok (some (finishContainer item kind.base []), buffer.skip (skippedWhitespace rest + 2))
      else
        parseEntries library kind fuel (buffer.enter.skip (skippedWhitespace rest)) >>=
          finishEntries kind item := by
  have total := valid.remaining_length
  have deeper : buffer.enter.Valid := valid.withDepth _
  have deeperBytes : buffer.enter.remaining = kind.opening :: rest := bytes
  have size : buffer.enter.remaining.length = rest.length + 1 := by
    rw [deeperBytes, List.length_cons]
  have skipped := skippedWhitespace_lt more
  have left : (buffer.enter.skip 1).remaining = rest := by
    rw [remaining_skip, deeperBytes]
    rfl
  have spaced := (deeper.skip (show 1 ≤ buffer.enter.remaining.length by omega)).bufferSkipWhitespace_eq
  rw [left, skip_skip, Nat.add_comm] at spaced
  have behind := deeper.skip
    (show skippedWhitespace rest + 1 ≤ buffer.enter.remaining.length by omega)
  have behindBytes : (buffer.enter.skip (skippedWhitespace rest + 1)).remaining =
      rest.drop (skippedWhitespace rest) := by
    rw [remaining_skip, deeperBytes]
    rfl
  have access : (buffer.enter.skip (skippedWhitespace rest + 1)).canAccessAtIndex 0 = true := by
    rw [behind.canAccess_eq, behindBytes, List.length_drop]
    exact decide_eq_true (by omega)
  have ends : ∀ closing, ((do
      if ← (buffer.enter.skip (skippedWhitespace rest + 1)).guardedByte closing then do
        let buffer ← (buffer.enter.skip (skippedWhitespace rest + 1)).advance 1
        .ok (some (finishContainer item kind.base []), { buffer with depth := buffer.depth - 1 })
      else do
        let buffer ← (buffer.enter.skip (skippedWhitespace rest + 1)).retreat
        parseEntries library kind fuel buffer >>= finishEntries kind item) :
      Except Fault (Option Item × ParseBuffer)) =
      if (rest.drop (skippedWhitespace rest)).head? == some closing then
        .ok (some (finishContainer item kind.base []), buffer.skip (skippedWhitespace rest + 2))
      else
        parseEntries library kind fuel (buffer.enter.skip (skippedWhitespace rest)) >>=
          finishEntries kind item := by
    intro closing
    rw [behind.guardedByte_eq, Except.ok_bind, behindBytes,
      behind.advance_eq (by rw [behindBytes, List.length_drop]; omega),
      deeper.retreat_skip (by omega)]
    rfl
  cases kind with
  | array =>
      show parseArray library (fuel + 1) item buffer = _
      unfold parseArray
      dsimp only [ParseState.buffer, ParseState.withBuffer, ParseState.delete]
      rw [if_neg (Nat.not_le.mpr shallow)]
      have opening : ParseBuffer.read { buffer with depth := buffer.depth + 1 } buffer.offset =
          .ok 0x5B := read_head deeperBytes
      rw [opening, Except.ok_bind, if_neg (by decide)]
      show (buffer.enter.advance 1 >>= _) = _
      rw [deeper.advance_eq (by omega), Except.ok_bind, spaced, Except.ok_bind, access,
        if_neg (by decide)]
      refine Eq.trans ?_ (ends 0x5D)
      congr 1
      funext found
      cases found with
      | true => rfl
      | false =>
          show (ParseBuffer.retreat _ >>= _) = (ParseBuffer.retreat _ >>= _)
          congr 1
          funext back
          show (parseEntries library .array fuel back >>= _) = (parseEntries library .array fuel back >>= _)
          congr 1
          funext entries
          rcases entries with ⟨_ | children, last⟩ <;> rfl
  | object =>
      show parseObject library (fuel + 1) item buffer = _
      unfold parseObject
      dsimp only [ParseState.buffer, ParseState.withBuffer, ParseState.delete]
      rw [if_neg (Nat.not_le.mpr shallow)]
      have opening : ParseBuffer.guardedByte { buffer with depth := buffer.depth + 1 } 0x7B =
          .ok true := by
        show buffer.enter.guardedByte 0x7B = .ok true
        rw [deeper.guardedByte_eq, deeperBytes]
        rfl
      rw [opening, Except.ok_bind, if_neg (by decide)]
      show (buffer.enter.advance 1 >>= _) = _
      rw [deeper.advance_eq (by omega), Except.ok_bind, spaced, Except.ok_bind, access,
        if_neg (by decide)]
      refine Eq.trans ?_ (ends 0x7D)
      congr 1
      funext found
      cases found with
      | true => rfl
      | false =>
          show (ParseBuffer.retreat _ >>= _) = (ParseBuffer.retreat _ >>= _)
          congr 1
          funext back
          show (parseEntries library .object fuel back >>= _) = (parseEntries library .object fuel back >>= _)
          congr 1
          funext entries
          rcases entries with ⟨_ | children, last⟩ <;> rfl

/-- `parse_value` on the bytes that remain.  The literals are tried first, and then
the first byte decides; the checks of the length are those of the list of bytes. -/
theorem parseValue_eq (item : Item) (valid : buffer.Valid) :
    parseValue library (fuel + 1) item buffer =
      if buffer.remaining.take 4 == [0x6E, 0x75, 0x6C, 0x6C] then
        .ok (some (setLiteral item .null item.fields.valueint), buffer.skip 4)
      else if buffer.remaining.take 5 == [0x66, 0x61, 0x6C, 0x73, 0x65] then
        .ok (some (setLiteral item .false item.fields.valueint), buffer.skip 5)
      else if buffer.remaining.take 4 == [0x74, 0x72, 0x75, 0x65] then
        .ok (some (setLiteral item .true 1), buffer.skip 4)
      else match buffer.remaining with
        | [] => .ok (none, buffer)
        | byte :: _ =>
            if byte = 0x22 then parseString item buffer
            else if byte = 0x2D ∨ (48 ≤ byte ∧ byte ≤ 57) then parseNumber library item buffer
            else if byte = 0x5B then parseContainer library .array fuel item buffer
            else if byte = 0x7B then parseContainer library .object fuel item buffer
            else .ok (none, buffer) := by
  have skips : ∀ (literal : Bytes) {found : Item} {other : Except Fault (Option Item × ParseBuffer)},
      (do
        if ← canMatch buffer literal.length literal then do
          let buffer ← buffer.advance literal.length
          .ok (some found, buffer)
        else other) =
      if buffer.remaining.take literal.length == literal then
        .ok (some found, buffer.skip literal.length)
      else other := by
    intro literal found other
    rw [valid.canMatch_eq, Except.ok_bind]
    by_cases matched : (buffer.remaining.take literal.length == literal) = true
    · have inside : literal.length ≤ buffer.remaining.length := by
        have lengths := congrArg List.length (eq_of_beq matched)
        rw [List.length_take] at lengths
        omega
      rw [if_pos matched, if_pos matched, valid.advance_eq inside]
      rfl
    · rw [if_neg matched, if_neg matched]
  unfold parseValue
  dsimp only [ParseState.buffer, ParseState.withBuffer]
  refine (skips [0x6E, 0x75, 0x6C, 0x6C]).trans ?_
  congr 1
  refine (skips [0x66, 0x61, 0x6C, 0x73, 0x65]).trans ?_
  congr 1
  refine (skips [0x74, 0x72, 0x75, 0x65]).trans ?_
  congr 1
  rw [valid.canAccess_eq]
  cases bytes : buffer.remaining with
  | nil => rfl
  | cons byte rest =>
      rw [if_neg (by simp), read_head bytes]
      rfl

end Equations

/-! ## Completeness -/

theorem Container.closing_large (kind : Container) : 32 < kind.closing := by
  cases kind <;> decide

theorem Container.closing_ne_comma (kind : Container) : kind.closing ≠ 0x2C := by
  cases kind <;> decide

theorem Container.closing_stops (kind : Container) : isNumberByte kind.closing = false := by
  cases kind <;> decide

/-- The first byte of a phrase: a token starts there, and no container ends.  The
loops can therefore tell an empty container from one with entries by that byte. -/
theorem derives_head {library : CLibrary} {phrase : Phrase} {limit : Nat} {text : Bytes}
    {items : List Item} (derives : Derives library phrase limit text items) :
    ∃ first rest, text = first :: rest ∧ 32 < first ∧ first ≠ 0x5D ∧ first ≠ 0x7D ∧
      first < 0x80 := by
  induction derives with
  | null => exact ⟨_, _, rfl, by decide⟩
  | false => exact ⟨_, _, rfl, by decide⟩
  | true => exact ⟨_, _, rfl, by decide⟩
  | string accepted =>
      rcases accepted with ⟨body, pointer, rfl, _, _, _⟩
      exact ⟨_, _, rfl, by decide⟩
  | @number _ _ first token number start accepted =>
      refine ⟨first, token, rfl, ?_⟩
      rcases start with rfl | digit
      · decide
      · have lower := UInt8.le_iff_toNat_le.mp digit.1
        have upper := UInt8.le_iff_toNat_le.mp digit.2
        simp [UInt8.lt_iff_toNat_lt, ← UInt8.toNat_inj] at lower upper ⊢
        omega
  | empty kind blank => exact ⟨_, _, rfl, by cases kind <;> decide⟩
  | filled kind blank entries hypothesis => exact ⟨_, _, rfl, by cases kind <;> decide⟩
  | element value hypothesis => exact hypothesis
  | member accepted blankSpace blankGap value hypothesis =>
      rcases accepted with ⟨body, pointer, rfl, _, _, _⟩
      exact ⟨_, _, rfl, by decide⟩
  | last blank entry hypothesis =>
      rcases hypothesis with ⟨first, rest, rfl, bounds⟩
      exact ⟨first, _, rfl, bounds⟩
  | more blankSpace blankGap entry entries hypothesis _ =>
      rcases hypothesis with ⟨first, rest, rfl, bounds⟩
      exact ⟨first, _, rfl, bounds⟩

/-- An item as `parse_value` gets it: nothing is set but the name, and perhaps the
type that reading the name has left behind. -/
def Fresh (start : Item) (name : Option Bytes) : Prop :=
  ∃ type_, start = .mk { type_ := type_, string := name } [] .null

theorem fresh_newItem : Fresh newItem none := ⟨_, rfl⟩

theorem fresh_swapName (key : Bytes) : Fresh (swapName (setString newItem key)) (some key) :=
  ⟨_, rfl⟩

/-- That the parser reads a phrase to its end.  The entries of a container are
read from the byte before them, and what follows them closes the container. -/
def Reads (library : CLibrary) : Phrase -> Nat -> Bytes -> List Item -> Prop
  | .value name, limit, text, items =>
      ∀ (start : Item) (buffer : ParseBuffer) (rest : Bytes) (fuel : Nat), Fresh start name ->
        buffer.Valid -> buffer.hooks.AlwaysSucceed -> buffer.depth + limit ≤ nestingLimit ->
        buffer.remaining = text ++ rest -> EndsNumber rest ->
        3 * buffer.remaining.length + 3 ≤ fuel ->
        ∃ item, items = [item] ∧
          parseValue library fuel start buffer = .ok (some item, buffer.skip text.length)
  | .entry kind, limit, text, items =>
      ∀ (buffer : ParseBuffer) (rest : Bytes) (fuel : Nat),
        buffer.Valid -> buffer.hooks.AlwaysSucceed -> buffer.depth + limit ≤ nestingLimit ->
        buffer.remaining = text ++ rest -> EndsNumber rest ->
        3 * buffer.remaining.length + 3 ≤ fuel ->
        ∃ item, items = [item] ∧
          parseEntry library fuel kind buffer = .ok (some item, buffer.skip text.length)
  | .entries kind, limit, text, items =>
      ∀ (buffer : ParseBuffer) (prior : UInt8) (space rest : Bytes) (fuel : Nat),
        buffer.Valid -> buffer.hooks.AlwaysSucceed -> buffer.depth + limit ≤ nestingLimit ->
        Blank space -> buffer.remaining = prior :: (space ++ (text ++ kind.closing :: rest)) ->
        3 * buffer.remaining.length + 1 ≤ fuel ->
        parseEntries library kind fuel buffer =
          .ok (some items, buffer.skip (1 + space.length + text.length))

/-- That the parser reads a value to its end, whatever follows it.  Only a number
depends on that, since the run of bytes that is handed to the C library ends with the
first byte that cannot belong to one. -/
def ReadsAnywhere (library : CLibrary) (name : Option Bytes) (limit : Nat) (text : Bytes)
    (item : Item) : Prop :=
  ∀ (start : Item) (buffer : ParseBuffer) (rest : Bytes) (fuel : Nat), Fresh start name ->
    buffer.Valid -> buffer.hooks.AlwaysSucceed -> buffer.depth + limit ≤ nestingLimit ->
    buffer.remaining = text ++ rest -> 3 * buffer.remaining.length + 3 ≤ fuel ->
    parseValue library fuel start buffer = .ok (some item, buffer.skip text.length)

/-- The byte before the first entry: the bracket, or the last blank behind it. -/
theorem drop_prior (first : UInt8) {rest : Bytes} {count : Nat} (inside : count ≤ rest.length) :
    ∃ prior, (first :: rest).drop count = prior :: rest.drop count := by
  have here : count < (first :: rest).length := by
    rw [List.length_cons]
    omega
  exact ⟨_, List.drop_eq_getElem_cons here⟩

section Completeness

variable {library : CLibrary} {limit : Nat} {name : Option Bytes}

theorem ReadsAnywhere.reads {text : Bytes} {item : Item}
    (anywhere : ReadsAnywhere library name limit text item) :
    Reads library (.value name) limit text [item] := by
  intro start buffer rest fuel fresh valid succeeds shallow split _ enough
  exact ⟨item, rfl, anywhere start buffer rest fuel fresh valid succeeds shallow split enough⟩

/-- The fuel is never used up before the first step. -/
theorem exists_fuel {needed fuel : Nat} (enough : needed + 1 ≤ fuel) :
    ∃ less, fuel = less + 1 ∧ needed ≤ less := ⟨fuel - 1, by omega, by omega⟩

theorem reads_string {token output : Bytes} (accepted : StringToken token output) :
    ReadsAnywhere library name limit token (setString (named name) output) := by
  intro start buffer rest fuel fresh valid succeeds _ split enough
  rcases fresh with ⟨type_, rfl⟩
  rcases exists_fuel enough with ⟨fuel, rfl, _⟩
  have parsed := parseStringBytes_complete valid succeeds split accepted
  rcases accepted with ⟨body, pointer, rfl, _⟩
  have bytes : buffer.remaining = 0x22 :: (body ++ [0x22] ++ rest) := split
  rw [parseValue_eq _ valid, bytes, if_neg (by simp), if_neg (by simp), if_neg (by simp)]
  dsimp only
  rw [if_pos rfl]
  exact parseString_eq_some.mpr ⟨output, parsed, rfl⟩

theorem reads_number {first : UInt8} {token : Bytes} {number : Binary64}
    (start : first = 0x2D ∨ (48 ≤ first ∧ first ≤ 57))
    (accepted : NumberToken library (first :: token) number) :
    Reads library (.value name) limit (first :: token) [setNumber (named name) number] := by
  intro item buffer rest fuel fresh valid succeeds _ split ends enough
  rcases fresh with ⟨type_, rfl⟩
  rcases exists_fuel enough with ⟨fuel, rfl, _⟩
  refine ⟨_, rfl, ?_⟩
  have parsed := parseNumber_complete (.mk { type_ := type_, string := name } [] .null) valid
    succeeds split accepted ends
  have bytes : buffer.remaining = first :: (token ++ rest) := split
  have notLetter : first ≠ 0x6E ∧ first ≠ 0x66 ∧ first ≠ 0x74 ∧ first ≠ 0x22 := by
    rcases start with rfl | digit
    · decide
    · have upper := UInt8.le_iff_toNat_le.mp digit.2
      have lower := UInt8.le_iff_toNat_le.mp digit.1
      simp [← UInt8.toNat_inj] at lower upper ⊢
      omega
  rw [parseValue_eq _ valid, bytes, if_neg (by simp [notLetter]), if_neg (by simp [notLetter]),
    if_neg (by simp [notLetter])]
  dsimp only
  rw [if_neg notLetter.2.2.2, if_pos start, parsed]
  rfl

theorem reads_null : ReadsAnywhere library name limit [0x6E, 0x75, 0x6C, 0x6C]
    (setLiteral (named name) .null 0) := by
  intro item buffer rest fuel fresh valid _ _ split enough
  rcases fresh with ⟨type_, rfl⟩
  rcases exists_fuel enough with ⟨fuel, rfl, _⟩
  rw [parseValue_eq _ valid, split, if_pos (by simp)]
  rfl

theorem reads_false : ReadsAnywhere library name limit [0x66, 0x61, 0x6C, 0x73, 0x65]
    (setLiteral (named name) .false 0) := by
  intro item buffer rest fuel fresh valid _ _ split enough
  rcases fresh with ⟨type_, rfl⟩
  rcases exists_fuel enough with ⟨fuel, rfl, _⟩
  rw [parseValue_eq _ valid, split, if_neg (by simp), if_pos (by simp)]
  rfl

theorem reads_true : ReadsAnywhere library name limit [0x74, 0x72, 0x75, 0x65]
    (setLiteral (named name) .true 1) := by
  intro item buffer rest fuel fresh valid _ _ split enough
  rcases fresh with ⟨type_, rfl⟩
  rcases exists_fuel enough with ⟨fuel, rfl, _⟩
  rw [parseValue_eq _ valid, split, if_neg (by simp), if_neg (by simp), if_pos (by simp)]
  rfl

/-- A value that starts with a bracket is a container. -/
theorem parseValue_container {buffer : ParseBuffer} {fuel : Nat} (kind : Container) (item : Item)
    (valid : buffer.Valid) {rest : Bytes} (bytes : buffer.remaining = kind.opening :: rest) :
    parseValue library (fuel + 1) item buffer = parseContainer library kind fuel item buffer := by
  rw [parseValue_eq _ valid, bytes]
  cases kind with
  | array =>
      rw [if_neg (by simp [Container.opening]), if_neg (by simp [Container.opening]),
        if_neg (by simp [Container.opening])]
      rfl
  | object =>
      rw [if_neg (by simp [Container.opening]), if_neg (by simp [Container.opening]),
        if_neg (by simp [Container.opening])]
      rfl

theorem reads_empty (kind : Container) {space : Bytes} (blank : Blank space) :
    ReadsAnywhere library name (limit + 1) (kind.opening :: (space ++ [kind.closing]))
      (finishContainer (named name) kind.base []) := by
  intro item buffer rest fuel fresh valid _ shallow split enough
  rcases fresh with ⟨type_, rfl⟩
  rcases exists_fuel enough with ⟨less, rfl, covered⟩
  rcases exists_fuel covered with ⟨least, rfl, covers⟩
  have bytes : buffer.remaining = kind.opening :: (space ++ kind.closing :: rest) := by
    rw [split]
    simp
  have skipped := @skippedWhitespace_blank space kind.closing rest blank kind.closing_large
  rw [parseValue_container kind _ valid bytes,
    parseContainer_eq kind _ valid bytes (by simp) (by omega), skipped, List.drop_left,
    if_pos (by simp)]
  simp only [List.length_cons, List.length_append, List.length_nil, Nat.zero_add]
  rfl

/-- A container with entries: the loop reads them from the byte in front of them.  The
bracket and the blanks behind it have been read by then, and the depth is one more. -/
theorem parseValue_filled (kind : Container) (start : Item) {buffer : ParseBuffer} {space text rest : Bytes}
    {items : List Item} {fuel : Nat} (valid : buffer.Valid) (blank : Blank space)
    (derives : Derives library (.entries kind) limit text items)
    (split : buffer.remaining = kind.opening :: (space ++ (text ++ [kind.closing])) ++ rest)
    (shallow : buffer.depth < nestingLimit) :
    parseValue library (fuel + 2) start buffer =
        parseEntries library kind fuel (buffer.enter.skip space.length) >>= finishEntries kind start ∧
      space.length ≤ buffer.enter.remaining.length ∧
      ∃ prior, (buffer.enter.skip space.length).remaining = prior :: ([] ++ (text ++ kind.closing :: rest)) := by
  rcases derives_head derives with ⟨first, tail, rfl, large, notBracket, notBrace, _⟩
  have bytes : buffer.remaining =
      kind.opening :: (space ++ (first :: tail ++ kind.closing :: rest)) := by
    rw [split]
    simp
  have skipped := @skippedWhitespace_blank space first (tail ++ kind.closing :: rest) blank large
  have notClosing : first ≠ kind.closing := by cases kind <;> assumption
  have size := congrArg List.length bytes
  simp only [List.length_cons, List.length_append] at size
  refine ⟨?_, ?_, ?_⟩
  · rw [parseValue_container kind _ valid bytes,
      parseContainer_eq kind _ valid bytes (by simp) shallow]
    rw [List.cons_append, skipped, List.drop_left, if_neg (by simp [notClosing])]
  · show space.length ≤ buffer.remaining.length
    omega
  · rcases drop_prior kind.opening (show space.length ≤
      (space ++ (first :: tail ++ kind.closing :: rest)).length by
        rw [List.length_append]
        omega) with ⟨prior, dropped⟩
    refine ⟨prior, ?_⟩
    rw [remaining_skip]
    show buffer.remaining.drop space.length = _
    rw [bytes, dropped, List.drop_left]
    rfl

theorem reads_filled (kind : Container) {space text : Bytes} {items : List Item}
    (blank : Blank space) (derives : Derives library (.entries kind) limit text items)
    (entries : Reads library (.entries kind) limit text items) :
    ReadsAnywhere library name (limit + 1) (kind.opening :: (space ++ (text ++ [kind.closing])))
      (finishContainer (named name) kind.base items) := by
  intro item buffer rest fuel fresh valid succeeds shallow split enough
  rcases fresh with ⟨type_, rfl⟩
  rcases exists_fuel enough with ⟨less, rfl, covered⟩
  rcases exists_fuel covered with ⟨least, rfl, covers⟩
  rcases @parseValue_filled _ _ kind (.mk { type_ := type_, string := name } [] .null) _ _ _ rest _ least valid
    blank derives split (by omega) with ⟨parsed, inside, prior, left⟩
  have size := congrArg List.length split
  simp only [List.length_cons, List.length_append, List.length_nil] at size
  have deeper : buffer.enter.Valid := valid.withDepth _
  have read := entries (buffer.enter.skip space.length) prior [] rest least (deeper.skip inside)
    succeeds (by show buffer.depth + 1 + limit ≤ nestingLimit; omega) blank_nil left (by
      rw [left]
      simp only [List.length_cons, List.length_append, List.length_nil]
      omega)
  rw [parsed, read, Except.ok_bind, finishEntries]
  have atEnd : (buffer.enter.skip (space.length + (1 + 0 + text.length))).remaining =
      kind.closing :: rest := by
    rw [remaining_skip]
    show buffer.remaining.drop _ = _
    have shape : buffer.remaining =
        (kind.opening :: (space ++ text)) ++ kind.closing :: rest := by
      rw [split]
      simp
    have count : space.length + (1 + 0 + text.length) =
        (kind.opening :: (space ++ text)).length := by
      simp only [List.length_cons, List.length_append]
      omega
    rw [shape, count, List.drop_left]
  have last := deeper.skip (show space.length + (1 + 0 + text.length) ≤
    buffer.enter.remaining.length by
      show _ ≤ buffer.remaining.length
      omega)
  rw [skip_skip, List.length_nil, last.guardedByte_eq, atEnd, Except.ok_bind,
    if_pos (by simp), last.advance_eq (by rw [atEnd]; simp), Except.ok_bind]
  simp only [List.length_cons, List.length_append, List.length_nil, ParseBuffer.skip,
    ParseBuffer.enter, Nat.add_sub_cancel]
  congr 3
  omega

/-- A member: its value is read under its name.  The name is parsed as a string value
first and then moved, with blanks allowed on both sides of the colon. -/
theorem parseEntry_member {token key space gap text rest : Bytes} {items : List Item} {buffer : ParseBuffer}
    {fuel : Nat} (valid : buffer.Valid) (succeeds : buffer.hooks.AlwaysSucceed)
    (accepted : StringToken token key) (blankSpace : Blank space) (blankGap : Blank gap)
    (derives : Derives library (.value (some key)) limit text items)
    (split : buffer.remaining = token ++ (space ++ 0x3A :: (gap ++ text)) ++ rest) :
    parseEntry library fuel .object buffer =
        parseValue library fuel (swapName (setString newItem key))
          (buffer.skip (token.length + space.length + 1 + gap.length)) ∧
      token.length + space.length + 1 + gap.length ≤ buffer.remaining.length ∧
      (buffer.skip (token.length + space.length + 1 + gap.length)).remaining = text ++ rest := by
  rcases derives_head derives with ⟨first, tail, rfl, large, _, _⟩
  have bytes : buffer.remaining =
      token ++ (space ++ 0x3A :: (gap ++ (first :: tail ++ rest))) := by
    rw [split]
    simp
  have size := congrArg List.length bytes
  simp only [List.length_cons, List.length_append] at size
  have parsed := parseStringBytes_complete valid succeeds bytes accepted
  have afterName := valid.skip (show token.length ≤ buffer.remaining.length by omega)
  have nameLeft : (buffer.skip token.length).remaining =
      space ++ 0x3A :: (gap ++ (first :: tail ++ rest)) := by
    rw [remaining_skip, bytes, List.drop_left]
  have colon := valid.skip (show token.length + space.length ≤ buffer.remaining.length by omega)
  have colonLeft : (buffer.skip (token.length + space.length)).remaining =
      0x3A :: (gap ++ (first :: tail ++ rest)) := by
    rw [← skip_skip, remaining_skip, nameLeft, List.drop_left]
  have behind := valid.skip (show token.length + space.length + 1 ≤ buffer.remaining.length by omega)
  have behindLeft : (buffer.skip (token.length + space.length + 1)).remaining =
      gap ++ (first :: tail ++ rest) := by
    rw [← skip_skip, remaining_skip, colonLeft]
    rfl
  have startLeft : (buffer.skip (token.length + space.length + 1 + gap.length)).remaining =
      first :: tail ++ rest := by
    rw [← skip_skip, remaining_skip, behindLeft, List.drop_left]
  refine ⟨?_, by omega, startLeft⟩
  have name : parseString newItem buffer =
      .ok (some (setString newItem key), buffer.skip token.length) :=
    parseString_eq_some.mpr ⟨key, parsed, rfl⟩
  show (parseString newItem buffer >>= _) = _
  rw [name, Except.ok_bind]
  dsimp only
  rw [afterName.bufferSkipWhitespace_eq, nameLeft, skippedWhitespace_blank blankSpace (by decide),
    Except.ok_bind, skip_skip, colon.guardedByte_eq, colonLeft, Except.ok_bind, if_neg (by simp),
    colon.advance_eq (by rw [colonLeft]; simp), Except.ok_bind, skip_skip,
    behind.bufferSkipWhitespace_eq, behindLeft, List.cons_append,
    skippedWhitespace_blank blankGap large, Except.ok_bind, skip_skip]

theorem reads_member {token key space gap text : Bytes} {item : Item}
    (accepted : StringToken token key) (blankSpace : Blank space) (blankGap : Blank gap)
    (derives : Derives library (.value (some key)) limit text [item])
    (value : Reads library (.value (some key)) limit text [item]) :
    Reads library (.entry .object) limit (token ++ (space ++ 0x3A :: (gap ++ text))) [item] := by
  intro buffer rest fuel valid succeeds shallow split ends enough
  rcases @parseEntry_member _ _ _ _ _ _ _ _ _ _ fuel valid succeeds accepted blankSpace blankGap derives split
    with ⟨parsed, inside, startLeft⟩
  have size := congrArg List.length split
  simp only [List.length_cons, List.length_append] at size
  rcases value (swapName (setString newItem key)) _ rest fuel (fresh_swapName key) (valid.skip inside) succeeds
    shallow startLeft ends (by rw [startLeft]; simp only [List.length_append]; omega)
    with ⟨found, same, read⟩
  refine ⟨found, same, ?_⟩
  rw [parsed, read, skip_skip]
  simp only [List.length_append, List.length_cons]
  congr 3
  omega

/-- The loop up to the start of an entry: past the byte in front of it, and past the
blanks. -/
theorem parseEntries_first {kind : Container} {buffer : ParseBuffer} {prior : UInt8}
    {space text rest : Bytes} {items : List Item} {fuel : Nat} (valid : buffer.Valid)
    (succeeds : buffer.hooks.AlwaysSucceed) (blank : Blank space)
    (bytes : buffer.remaining = prior :: (space ++ (text ++ rest)))
    (derives : Derives library (.entry kind) limit text items) :
    parseEntries library kind (fuel + 1) buffer =
        parseEntry library fuel kind (buffer.skip (1 + space.length)) >>= continueEntries library kind fuel ∧
      1 + space.length ≤ buffer.remaining.length ∧
      (buffer.skip (1 + space.length)).remaining = text ++ rest := by
  rcases derives_head derives with ⟨first, tail, rfl, large, _, _⟩
  have size := congrArg List.length bytes
  simp only [List.length_cons, List.length_append] at size
  have startLeft : (buffer.skip (1 + space.length)).remaining = first :: tail ++ rest := by
    rw [remaining_skip, bytes, Nat.add_comm, List.drop_succ_cons, List.drop_left]
  have skipped := @skippedWhitespace_blank space first (tail ++ rest) blank large
  refine ⟨?_, by omega, startLeft⟩
  rw [parseEntries_eq kind valid bytes (by simp) (granted_eq succeeds _), requested_eq succeeds]
  rw [List.cons_append, skipped]

/-- The loop up to the end of an entry: the cursor is at the whitespace behind
it. -/
theorem parseEntries_entry {kind : Container} {buffer : ParseBuffer} {prior : UInt8}
    {space text rest : Bytes} {item : Item} {fuel : Nat} (valid : buffer.Valid)
    (succeeds : buffer.hooks.AlwaysSucceed) (shallow : buffer.depth + limit ≤ nestingLimit)
    (blank : Blank space) (bytes : buffer.remaining = prior :: (space ++ (text ++ rest)))
    (derives : Derives library (.entry kind) limit text [item])
    (entry : Reads library (.entry kind) limit text [item]) (ends : EndsNumber rest)
    (enough : 3 * buffer.remaining.length + 1 ≤ fuel + 1) :
    parseEntries library kind (fuel + 1) buffer =
      continueEntries library kind fuel (some item, buffer.skip (1 + space.length + text.length)) := by
  rcases @parseEntries_first _ _ _ _ _ _ _ _ _ fuel valid succeeds blank bytes derives with
    ⟨parsed, inside, startLeft⟩
  have size := congrArg List.length bytes
  simp only [List.length_cons, List.length_append] at size
  rcases entry _ rest fuel (valid.skip inside) succeeds shallow startLeft ends (by
    rw [startLeft]
    simp only [List.length_append]
    omega) with ⟨found, same, read⟩
  cases same
  rw [parsed, read, Except.ok_bind, skip_skip]

theorem reads_last {kind : Container} {text space : Bytes} {item : Item} (blank : Blank space)
    (derives : Derives library (.entry kind) limit text [item])
    (entry : Reads library (.entry kind) limit text [item]) :
    Reads library (.entries kind) limit (text ++ space) [item] := by
  intro buffer prior gap rest fuel valid succeeds shallow blankGap split enough
  rcases exists_fuel enough with ⟨less, rfl, covered⟩
  have bytes : buffer.remaining = prior :: (gap ++ (text ++ (space ++ kind.closing :: rest))) := by
    rw [split]
    simp
  have size := congrArg List.length bytes
  simp only [List.length_cons, List.length_append] at size
  have after := valid.skip (show 1 + gap.length + text.length ≤ buffer.remaining.length by omega)
  have afterLeft : (buffer.skip (1 + gap.length + text.length)).remaining =
      space ++ kind.closing :: rest := by
    rw [← skip_skip, ← skip_skip, remaining_skip, remaining_skip, remaining_skip, bytes,
      List.drop_succ_cons, List.drop_zero, List.drop_left, List.drop_left]
  have atEnd := valid.skip
    (show 1 + gap.length + text.length + space.length ≤ buffer.remaining.length by omega)
  have atEndLeft : (buffer.skip (1 + gap.length + text.length + space.length)).remaining =
      kind.closing :: rest := by
    rw [← skip_skip, remaining_skip, afterLeft, List.drop_left]
  rw [parseEntries_entry valid succeeds shallow blankGap bytes derives entry
    (endsNumber_blank blank kind.closing_stops) enough, continueEntries,
    after.bufferSkipWhitespace_eq, afterLeft, skippedWhitespace_blank blank kind.closing_large,
    Except.ok_bind, skip_skip, atEnd.guardedByte_eq, atEndLeft, Except.ok_bind,
    if_neg (by simp [kind.closing_ne_comma]), List.length_append, Nat.add_assoc]

/-- Behind an entry and a comma the loop reads the other entries, and the entry goes
in front of them. -/
theorem continueEntries_comma {kind : Container} {buffer : ParseBuffer} {space rest : Bytes} {item : Item}
    {fuel : Nat} (valid : buffer.Valid) (blank : Blank space)
    (bytes : buffer.remaining = space ++ 0x2C :: rest) :
    continueEntries library kind fuel (some item, buffer) =
        (parseEntries library kind fuel (buffer.skip space.length) >>= fun (others, after) =>
          .ok (others.map (item :: ·), after)) ∧
      space.length ≤ buffer.remaining.length ∧ (buffer.skip space.length).remaining = 0x2C :: rest := by
  have size := congrArg List.length bytes
  simp only [List.length_cons, List.length_append] at size
  have inside : space.length ≤ buffer.remaining.length := by omega
  have comma := valid.skip inside
  have commaLeft : (buffer.skip space.length).remaining = 0x2C :: rest := by
    rw [remaining_skip, bytes, List.drop_left]
  refine ⟨?_, inside, commaLeft⟩
  rw [continueEntries, valid.bufferSkipWhitespace_eq, bytes, skippedWhitespace_blank blank (by decide),
    Except.ok_bind, comma.guardedByte_eq, commaLeft, Except.ok_bind, if_pos (by simp)]

theorem reads_more {kind : Container} {text space gap rest : Bytes} {item : Item}
    {items : List Item} (blankSpace : Blank space) (blankGap : Blank gap)
    (derives : Derives library (.entry kind) limit text [item])
    (entry : Reads library (.entry kind) limit text [item])
    (entries : Reads library (.entries kind) limit rest items) :
    Reads library (.entries kind) limit (text ++ (space ++ 0x2C :: (gap ++ rest)))
      (item :: items) := by
  intro buffer prior before behind fuel valid succeeds shallow blankBefore split enough
  rcases exists_fuel enough with ⟨less, rfl, covered⟩
  have bytes : buffer.remaining = prior :: (before ++ (text ++
      (space ++ 0x2C :: (gap ++ (rest ++ kind.closing :: behind))))) := by
    rw [split]
    simp
  have size := congrArg List.length bytes
  simp only [List.length_cons, List.length_append] at size
  have after := valid.skip (show 1 + before.length + text.length ≤ buffer.remaining.length by omega)
  have afterLeft : (buffer.skip (1 + before.length + text.length)).remaining =
      space ++ 0x2C :: (gap ++ (rest ++ kind.closing :: behind)) := by
    rw [← skip_skip, ← skip_skip, remaining_skip, remaining_skip, remaining_skip, bytes,
      List.drop_succ_cons, List.drop_zero, List.drop_left, List.drop_left]
  rcases @continueEntries_comma library kind _ _ _ item less after blankSpace afterLeft with
    ⟨continues, inside, commaLeft⟩
  have read := entries _ 0x2C gap behind less (after.skip inside) succeeds shallow blankGap commaLeft (by
    rw [commaLeft]
    simp only [List.length_append, List.length_cons]
    omega)
  rw [parseEntries_entry valid succeeds shallow blankBefore bytes derives entry
    (endsNumber_blank blankSpace (by decide)) enough, continues, read, Except.ok_bind, skip_skip, skip_skip]
  simp only [List.length_append, List.length_cons, Option.map_some]
  congr 3
  omega

/-- The parser reads every phrase of the grammar to its end. -/
theorem reads_of_derives {phrase : Phrase} {text : Bytes} {items : List Item}
    (derives : Derives library phrase limit text items) : Reads library phrase limit text items := by
  induction derives with
  | null => exact reads_null.reads
  | false => exact reads_false.reads
  | true => exact reads_true.reads
  | string accepted => exact (reads_string accepted).reads
  | number start accepted => exact reads_number start accepted
  | empty kind blank => exact (reads_empty kind blank).reads
  | filled kind blank derives hypothesis => exact (reads_filled kind blank derives hypothesis).reads
  | element derives hypothesis =>
      intro buffer rest fuel valid succeeds shallow split ends enough
      exact hypothesis newItem buffer rest fuel fresh_newItem valid succeeds shallow split ends enough
  | member accepted blankSpace blankGap derives hypothesis =>
      exact reads_member accepted blankSpace blankGap derives hypothesis
  | last blank derives hypothesis => exact reads_last blank derives hypothesis
  | more blankSpace blankGap derives _ hypothesis entries =>
      exact reads_more blankSpace blankGap derives hypothesis entries

end Completeness

/-! ## Soundness -/

section Soundness

variable {library : CLibrary} {fuel : Nat}

/-- That what `run` has read off the buffer is a phrase, provided that the text
behind it does not continue a number. -/
def Recognizes (library : CLibrary) (phrase : Phrase) (buffer : ParseBuffer)
    (run : Except Fault (Option Item × ParseBuffer)) : Prop :=
  ∀ item after, run = .ok (some item, after) ->
    ∃ text rest, buffer.remaining = text ++ rest ∧ buffer.Moved text.length after ∧
      (EndsNumber rest -> Derives library phrase (nestingLimit - buffer.depth) text [item])

/-- The same without the proviso about what follows.  It holds of every value but a
number, which ends only where something that cannot continue it begins. -/
def RecognizesAnywhere (library : CLibrary) (name : Option Bytes) (buffer : ParseBuffer)
    (run : Except Fault (Option Item × ParseBuffer)) : Prop :=
  ∀ item after, run = .ok (some item, after) ->
    ∃ text rest, buffer.remaining = text ++ rest ∧ buffer.Moved text.length after ∧
      Derives library (.value name) (nestingLimit - buffer.depth) text [item]

theorem RecognizesAnywhere.recognizes {name : Option Bytes} {buffer : ParseBuffer}
    {run : Except Fault (Option Item × ParseBuffer)}
    (anywhere : RecognizesAnywhere library name buffer run) :
    Recognizes library (.value name) buffer run := by
  intro item after parsed
  rcases anywhere item after parsed with ⟨text, rest, split, moved, derives⟩
  exact ⟨text, rest, split, moved, fun _ => derives⟩

/-- The same for the entries of a container, read from the byte before them.
What follows them is the closing bracket if the container is to succeed. -/
def RecognizesEntries (library : CLibrary) (kind : Container) (buffer : ParseBuffer)
    (run : Except Fault (Option (List Item) × ParseBuffer)) : Prop :=
  ∀ prior bytes items after, buffer.remaining = prior :: bytes -> run = .ok (some items, after) ->
    ∃ space text rest, bytes = space ++ (text ++ rest) ∧ Blank space ∧
      buffer.Moved (1 + space.length + text.length) after ∧
      (rest.head? = some kind.closing ->
        Derives library (.entries kind) (nestingLimit - buffer.depth) text items)

/-- What one unit of fuel less has established: that each of the mutually recursive
functions, if it succeeds, has read a phrase and returns its tree.  It is the
hypothesis of the induction on the fuel. -/
structure Sound (library : CLibrary) (fuel : Nat) : Prop where
  value : ∀ start name buffer, Fresh start name -> buffer.Valid ->
    Recognizes library (.value name) buffer (parseValue library fuel start buffer)
  container : ∀ kind start name buffer rest, Fresh start name -> buffer.Valid ->
    buffer.remaining = Container.opening kind :: rest ->
    Recognizes library (.value name) buffer (parseContainer library kind fuel start buffer)
  entries : ∀ kind buffer, buffer.Valid ->
    RecognizesEntries library kind buffer (parseEntries library kind fuel buffer)

/-- The whitespace at the cursor, and what is left behind it. -/
theorem skip_split (bytes : Bytes) : ∃ space rest, bytes = space ++ rest ∧ Blank space ∧
    space.length = skippedWhitespace bytes ∧ rest = bytes.drop (skippedWhitespace bytes) := by
  refine ⟨bytes.take (skippedWhitespace bytes), bytes.drop (skippedWhitespace bytes),
    (List.take_append_drop _ _).symm, blank_take_skipped bytes, ?_, rfl⟩
  rw [List.length_take, Nat.min_eq_left (skippedWhitespace_le bytes)]

theorem take_eq_literal {bytes literal : Bytes}
    (matched : (bytes.take literal.length == literal) = true) :
    bytes = literal ++ bytes.drop literal.length := by
  have same := eq_of_beq matched
  nth_rewrite 1 [← List.take_append_drop literal.length bytes]
  rw [same]

/-- A literal that has been matched. -/
theorem recognizes_literal {name : Option Bytes} {buffer : ParseBuffer} {literal : Bytes}
    {result : Item} (derives : ∀ limit, Derives library (.value name) limit literal [result])
    (matched : (buffer.remaining.take literal.length == literal) = true) :
    RecognizesAnywhere library name buffer (.ok (some result, buffer.skip literal.length)) := by
  intro item after same
  cases same
  exact ⟨literal, _, take_eq_literal matched, moved_skip _ _, derives _⟩

theorem recognizes_none {name : Option Bytes} {buffer after : ParseBuffer} :
    RecognizesAnywhere library name buffer (.ok (none, after)) := by
  intro item other same
  cases same

theorem recognizes_string {start : Item} {name : Option Bytes} {buffer : ParseBuffer}
    (fresh : Fresh start name) :
    RecognizesAnywhere library name buffer (parseString start buffer) := by
  intro item after parsed
  rcases fresh with ⟨type_, rfl⟩
  rcases parseString_eq_some.mp parsed with ⟨output, read, rfl⟩
  rcases parseStringBytes_sound read with ⟨token, rest, split, accepted, moved⟩
  exact ⟨token, rest, split, moved, .string accepted⟩

theorem recognizes_number (consumes : library.ConsumesAtMost) {start : Item} {name : Option Bytes}
    {buffer : ParseBuffer} (fresh : Fresh start name) (valid : buffer.Valid) {first : UInt8}
    {bytes : Bytes} (split : buffer.remaining = first :: bytes)
    (digit : first = 0x2D ∨ (48 ≤ first ∧ first ≤ 57)) :
    Recognizes library (.value name) buffer (parseNumber library start buffer) := by
  intro item after parsed
  rcases fresh with ⟨type_, rfl⟩
  rcases parseNumber_sound consumes valid parsed with
    ⟨token, rest, number, whole, some, rfl, moved, accepted⟩
  refine ⟨token, rest, whole, moved, ?_⟩
  intro ends
  cases token with
  | nil => exact absurd rfl some
  | cons other token =>
      rw [split] at whole
      injection whole with same _
      subst same
      exact .number digit (accepted ends)

theorem parseValue_sound (consumes : library.ConsumesAtMost) (below : Sound library fuel)
    {start : Item} {name : Option Bytes} {buffer : ParseBuffer} (fresh : Fresh start name)
    (valid : buffer.Valid) :
    Recognizes library (.value name) buffer (parseValue library (fuel + 1) start buffer) := by
  rw [parseValue_eq start valid]
  by_cases isNull : (buffer.remaining.take 4 == [0x6E, 0x75, 0x6C, 0x6C]) = true
  · rw [if_pos isNull]
    rcases fresh with ⟨type_, rfl⟩
    exact (recognizes_literal (fun _ => .null) isNull).recognizes
  rw [if_neg isNull]
  by_cases isFalse : (buffer.remaining.take 5 == [0x66, 0x61, 0x6C, 0x73, 0x65]) = true
  · rw [if_pos isFalse]
    rcases fresh with ⟨type_, rfl⟩
    exact (recognizes_literal (fun _ => .false) isFalse).recognizes
  rw [if_neg isFalse]
  by_cases isTrue : (buffer.remaining.take 4 == [0x74, 0x72, 0x75, 0x65]) = true
  · rw [if_pos isTrue]
    rcases fresh with ⟨type_, rfl⟩
    exact (recognizes_literal (fun _ => .true) isTrue).recognizes
  rw [if_neg isTrue]
  cases bytes : buffer.remaining with
  | nil => exact recognizes_none.recognizes
  | cons first rest =>
      dsimp only
      by_cases quote : first = 0x22
      · rw [if_pos quote]
        exact (recognizes_string fresh).recognizes
      rw [if_neg quote]
      by_cases digit : first = 0x2D ∨ (48 ≤ first ∧ first ≤ 57)
      · rw [if_pos digit]
        exact recognizes_number consumes fresh valid bytes digit
      rw [if_neg digit]
      by_cases bracket : first = 0x5B
      · rw [if_pos bracket]
        exact below.container .array start name buffer rest fresh valid (by rw [bytes, bracket]; rfl)
      rw [if_neg bracket]
      by_cases brace : first = 0x7B
      · rw [if_pos brace]
        exact below.container .object start name buffer rest fresh valid (by rw [bytes, brace]; rfl)
      · rw [if_neg brace]
        exact recognizes_none.recognizes

theorem parseEntry_sound (below : Sound library fuel) (kind : Container) {buffer : ParseBuffer}
    (valid : buffer.Valid) :
    Recognizes library (.entry kind) buffer (parseEntry library fuel kind buffer) := by
  intro item after parsed
  cases kind with
  | array =>
      rcases below.value newItem none buffer fresh_newItem valid item after parsed with
        ⟨text, rest, split, moved, derives⟩
      exact ⟨text, rest, split, moved, fun ends => .element (derives ends)⟩
  | object =>
      rcases Except.bind_eq_ok.mp parsed with ⟨result, readName, parsed⟩
      rcases result with ⟨name, afterName⟩
      cases name with
      | none => cases parsed
      | some name =>
          rcases parseString_eq_some.mp readName with ⟨key, readBytes, rfl⟩
          rcases parseStringBytes_sound readBytes with ⟨token, behindName, split, accepted, moved⟩
          have nameValid := moved.valid valid (by rw [split]; simp)
          have nameLeft : afterName.remaining = behindName := by
            rw [moved.remaining, split, List.drop_left]
          dsimp only at parsed
          rw [nameValid.bufferSkipWhitespace_eq, Except.ok_bind, nameLeft] at parsed
          rcases skip_split behindName with ⟨space, atColon, spaceSplit, blank, spaceLength, colonEq⟩
          have colonValid := nameValid.skipWhitespace
          rw [nameLeft] at colonValid
          have colonLeft : (afterName.skip (skippedWhitespace behindName)).remaining = atColon := by
            rw [remaining_skip, nameLeft, colonEq]
          rw [colonValid.guardedByte_eq, Except.ok_bind, colonLeft] at parsed
          cases colonBytes : atColon with
          | nil =>
              rw [colonBytes, if_pos (by simp)] at parsed
              cases parsed
          | cons colon behindColon =>
              by_cases isColon : colon = 0x3A
              · subst isColon
                rw [colonBytes] at colonLeft
                rw [colonBytes, if_neg (by simp), colonValid.advance_eq (by rw [colonLeft]; simp),
                  Except.ok_bind, skip_skip] at parsed
                have behindValid := colonValid.skip (show 1 ≤ _ by rw [colonLeft]; simp)
                rw [skip_skip] at behindValid
                have behindLeft : (afterName.skip (skippedWhitespace behindName + 1)).remaining =
                    behindColon := by
                  rw [← skip_skip, remaining_skip, colonLeft]
                  rfl
                rw [behindValid.bufferSkipWhitespace_eq, behindLeft, Except.ok_bind,
                  skip_skip] at parsed
                rcases skip_split behindColon with
                  ⟨gap, valueBytes, gapSplit, blankGap, gapLength, valueEq⟩
                have startValid := behindValid.skipWhitespace
                rw [behindLeft, skip_skip] at startValid
                have startLeft : (afterName.skip (skippedWhitespace behindName + 1 +
                    skippedWhitespace behindColon)).remaining = valueBytes := by
                  rw [← skip_skip, remaining_skip, behindLeft, valueEq]
                rcases below.value _ (some key) _ (fresh_swapName key) startValid item after parsed
                  with ⟨text, rest, valueSplit, valueMoved, derives⟩
                rw [startLeft] at valueSplit
                refine ⟨token ++ (space ++ 0x3A :: (gap ++ text)), rest, ?_, ?_, ?_⟩
                · rw [split, spaceSplit, colonBytes, gapSplit, valueSplit]
                  simp
                · refine ((moved.trans (moved_skip _ _)).trans valueMoved).of_eq ?_
                  simp only [List.length_append, List.length_cons, spaceLength, gapLength]
                  omega
                · intro ends
                  have depthEq : afterName.depth = buffer.depth := moved.depth_eq
                  have value := derives ends
                  rw [skip_depth, depthEq] at value
                  exact .member accepted blank blankGap value
              · rw [colonBytes, if_pos (by simp [isColon])] at parsed
                cases parsed

/-- A loop that succeeds has got its node, and an object's loop has seen a byte
behind the cursor. -/
theorem parseEntries_starts {kind : Container} {buffer after : ParseBuffer} {items : List Item}
    {prior : UInt8} {bytes : Bytes} (valid : buffer.Valid)
    (split : buffer.remaining = prior :: bytes)
    (parsed : parseEntries library kind (fuel + 1) buffer = .ok (some items, after)) :
    buffer.granted nodeSize = true ∧ (kind = .object -> bytes ≠ []) := by
  cases kind with
  | array =>
      refine ⟨?_, fun impossible => by cases impossible⟩
      cases granted : buffer.granted nodeSize with
      | true => rfl
      | false =>
          change parseArrayLoop library (fuel + 1) [] buffer = _ at parsed
          unfold parseArrayLoop at parsed
          dsimp only [ParseState.buffer, ParseState.withBuffer, ParseState.requested, ParseState.delete] at parsed
          rw [if_pos (by simp [granted])] at parsed
          cases parsed
  | object =>
      change parseObjectLoop library (fuel + 1) [] buffer = _ at parsed
      unfold parseObjectLoop at parsed
      dsimp only [ParseState.buffer, ParseState.withBuffer, ParseState.requested, ParseState.delete] at parsed
      cases granted : buffer.granted nodeSize with
      | false =>
          rw [if_pos (by simp [granted])] at parsed
          cases parsed
      | true =>
          refine ⟨rfl, ?_⟩
          rintro _ rfl
          have access : (buffer.requested nodeSize).canAccessAtIndex 1 = false := by
            rw [(valid.requested nodeSize).canAccess_eq]
            show decide (1 < buffer.remaining.length) = false
            rw [split]
            rfl
          rw [if_neg (by simp [granted]), if_pos (by simp [access])] at parsed
          cases parsed

theorem parseEntries_sound (below : Sound library fuel) (kind : Container) {buffer : ParseBuffer}
    (valid : buffer.Valid) :
    RecognizesEntries library kind buffer (parseEntries library kind (fuel + 1) buffer) := by
  intro prior bytes items after split parsed
  rcases parseEntries_starts valid split parsed with ⟨granted, more⟩
  rw [parseEntries_eq kind valid split more granted] at parsed
  rcases skip_split bytes with ⟨space, atEntry, spaceSplit, blank, spaceLength, entryEq⟩
  have size := congrArg List.length split
  rw [spaceSplit] at size
  simp only [List.length_cons, List.length_append] at size
  have requestedValid := valid.requested nodeSize
  have requestedBytes : (buffer.requested nodeSize).remaining = prior :: bytes := split
  have startValid := requestedValid.skip (show 1 + skippedWhitespace bytes ≤
    (buffer.requested nodeSize).remaining.length by
      rw [requestedBytes, List.length_cons]
      have bound := skippedWhitespace_le bytes
      omega)
  have startLeft : ((buffer.requested nodeSize).skip (1 + skippedWhitespace bytes)).remaining =
      atEntry := by
    rw [remaining_skip, requestedBytes, Nat.add_comm, List.drop_succ_cons, entryEq]
  rcases Except.bind_eq_ok.mp parsed with ⟨result, readEntry, parsed⟩
  rcases result with ⟨item, afterEntry⟩
  cases item with
  | none => cases parsed
  | some item =>
      rcases parseEntry_sound below kind startValid item afterEntry readEntry with
        ⟨text, behind, entrySplit, moved, derives⟩
      rw [startLeft] at entrySplit
      have entryValid := moved.valid startValid (by rw [startLeft, entrySplit]; simp)
      have entryLeft : afterEntry.remaining = behind := by
        rw [moved.remaining, startLeft, entrySplit, List.drop_left]
      have depthEq : afterEntry.depth = buffer.depth := moved.depth_eq
      have movedHere : buffer.Moved (1 + space.length + text.length) afterEntry := by
        have whole := ((moved_requested buffer nodeSize).trans (moved_skip _ _)).trans moved
        rw [Nat.zero_add, ← spaceLength] at whole
        exact whole
      rcases skip_split behind with ⟨gap, next, gapSplit, blankGap, gapLength, nextEq⟩
      have nextValid := entryValid.skipWhitespace
      have nextLeft : (afterEntry.skip (skippedWhitespace behind)).remaining = next := by
        rw [remaining_skip, entryLeft, nextEq]
      rw [entryLeft] at nextValid
      rw [continueEntries, entryValid.bufferSkipWhitespace_eq, entryLeft, Except.ok_bind,
        nextValid.guardedByte_eq, nextLeft, Except.ok_bind] at parsed
      have depthHere : nestingLimit -
          ((buffer.requested nodeSize).skip (1 + skippedWhitespace bytes)).depth =
          nestingLimit - buffer.depth := rfl
      rw [depthHere] at derives
      by_cases isComma : (next.head? == some 0x2C) = true
      · rw [if_pos isComma] at parsed
        rcases Except.bind_eq_ok.mp parsed with ⟨rest, readRest, parsed⟩
        rcases rest with ⟨others, last⟩
        cases others with
        | none => cases parsed
        | some others =>
            cases parsed
            cases next with
            | nil => simp at isComma
            | cons comma behindComma =>
                have commaEq : comma = 0x2C := by simpa using isComma
                subst commaEq
                rcases below.entries kind _ nextValid 0x2C behindComma others after nextLeft readRest
                  with ⟨lead, more, rest, restSplit, blankLead, restMoved, restDerives⟩
                refine ⟨space, text ++ (gap ++ 0x2C :: (lead ++ more)), rest, ?_, blank, ?_, ?_⟩
                · rw [spaceSplit, entrySplit, gapSplit, restSplit]
                  simp
                · refine ((movedHere.trans (moved_skip _ _)).trans restMoved).of_eq ?_
                  simp only [List.length_append, List.length_cons, gapLength]
                  omega
                · intro closes
                  have others := restDerives closes
                  rw [skip_depth, depthEq] at others
                  refine .more blankGap blankLead (derives ?_) others
                  rw [gapSplit]
                  exact endsNumber_blank blankGap (by decide)
      · rw [if_neg isComma] at parsed
        cases parsed
        refine ⟨space, text ++ gap, next, ?_, blank, ?_, ?_⟩
        · rw [spaceSplit, entrySplit, gapSplit]
          simp
        · refine (movedHere.trans (moved_skip afterEntry (skippedWhitespace behind))).of_eq ?_
          rw [← gapLength, Nat.add_assoc, ← List.length_append]
        · intro closes
          refine .last blankGap (derives ?_)
          rw [gapSplit]
          cases next with
          | nil => cases closes
          | cons first rest =>
              cases closes
              exact endsNumber_blank blankGap kind.closing_stops

/-- A container that succeeds was not too deep, and something follows its
opening bracket. -/
theorem parseContainer_starts {kind : Container} {buffer after : ParseBuffer} {start item : Item}
    {bytes : Bytes} (valid : buffer.Valid) (split : buffer.remaining = kind.opening :: bytes)
    (parsed : parseContainer library kind (fuel + 1) start buffer = .ok (some item, after)) :
    buffer.depth < nestingLimit ∧ bytes ≠ [] := by
  have deeper : buffer.enter.Valid := valid.withDepth _
  have deeperBytes : buffer.enter.remaining = kind.opening :: bytes := split
  have inside : 1 ≤ buffer.enter.remaining.length := by rw [deeperBytes]; simp
  have atEnd : bytes = [] -> bufferSkipWhitespace (buffer.enter.skip 1) =
        .ok (buffer.enter.skip 1) ∧ (buffer.enter.skip 1).canAccessAtIndex 0 = false ∧
        ∀ closing, (buffer.enter.skip 1).guardedByte closing = .ok false := by
    rintro rfl
    have left : (buffer.enter.skip 1).remaining = [] := by
      rw [remaining_skip, deeperBytes]
      rfl
    have endValid := deeper.skip inside
    refine ⟨?_, ?_, ?_⟩
    · rw [endValid.bufferSkipWhitespace_eq, left]
      rfl
    · rw [endValid.canAccess_eq, left]
      rfl
    · intro closing
      rw [endValid.guardedByte_eq, left]
      rfl
  have stepsBack : (buffer.enter.skip 1).retreat = .ok buffer.enter :=
    deeper.retreat_skip (Nat.zero_le _)
  by_cases deep : nestingLimit ≤ buffer.depth
  · cases kind with
    | array =>
        change parseArray library (fuel + 1) start buffer = _ at parsed
        rw [parseArray] at parsed
        dsimp only [ParseState.buffer] at parsed
        rw [if_pos deep] at parsed
        cases parsed
    | object =>
        change parseObject library (fuel + 1) start buffer = _ at parsed
        rw [parseObject] at parsed
        dsimp only [ParseState.buffer] at parsed
        rw [if_pos deep] at parsed
        cases parsed
  · refine ⟨Nat.not_le.mp deep, ?_⟩
    intro empty
    rcases atEnd empty with ⟨skips, access, guards⟩
    cases kind with
    | array =>
        change parseArray library (fuel + 1) start buffer = _ at parsed
        unfold parseArray at parsed
        dsimp only [ParseState.buffer, ParseState.withBuffer, ParseState.delete] at parsed
        rw [if_neg deep] at parsed
        change ((buffer.enter.read buffer.enter.offset >>= _) = _) at parsed
        rw [read_head deeperBytes, Except.ok_bind, if_neg (by decide)] at parsed
        change ((buffer.enter.advance 1 >>= _) = _) at parsed
        rw [deeper.advance_eq inside, Except.ok_bind, skips, Except.ok_bind, guards, Except.ok_bind,
          if_neg (by decide), access, if_pos (by decide), stepsBack] at parsed
        cases parsed
    | object =>
        change parseObject library (fuel + 1) start buffer = _ at parsed
        unfold parseObject at parsed
        dsimp only [ParseState.buffer, ParseState.withBuffer, ParseState.delete] at parsed
        rw [if_neg deep] at parsed
        change ((buffer.enter.guardedByte 0x7B >>= _) = _) at parsed
        rw [deeper.guardedByte_eq, deeperBytes, Except.ok_bind,
          if_neg (by simp [Container.opening])] at parsed
        change ((buffer.enter.advance 1 >>= _) = _) at parsed
        rw [deeper.advance_eq inside, Except.ok_bind, skips, Except.ok_bind, guards, Except.ok_bind,
          if_neg (by decide), access, if_pos (by decide), stepsBack] at parsed
        cases parsed

theorem parseContainer_sound (below : Sound library fuel) (kind : Container) {start : Item}
    {name : Option Bytes} {buffer : ParseBuffer} {bytes : Bytes} (fresh : Fresh start name)
    (valid : buffer.Valid) (split : buffer.remaining = kind.opening :: bytes) :
    RecognizesAnywhere library name buffer
      (parseContainer library kind (fuel + 1) start buffer) := by
  intro item after parsed
  rcases fresh with ⟨type_, rfl⟩
  rcases parseContainer_starts valid split parsed with ⟨shallow, more⟩
  rw [parseContainer_eq kind _ valid split more shallow] at parsed
  rcases skip_split bytes with ⟨space, atEntry, spaceSplit, blank, spaceLength, entryEq⟩
  have limitEq : nestingLimit - buffer.depth = nestingLimit - (buffer.depth + 1) + 1 := by omega
  rw [← entryEq] at parsed
  by_cases closes : (atEntry.head? == some kind.closing) = true
  · rw [if_pos closes] at parsed
    cases parsed
    cases atEntry with
    | nil => simp at closes
    | cons closing rest =>
        have closingEq : closing = kind.closing := by simpa using closes
        subst closingEq
        refine ⟨kind.opening :: (space ++ [kind.closing]), rest, ?_, ?_, ?_⟩
        · rw [split, spaceSplit]
          simp
        · refine (moved_skip buffer (skippedWhitespace bytes + 2)).of_eq ?_
          simp only [List.length_cons, List.length_append, List.length_nil, spaceLength]
        · rw [limitEq]
          exact .empty kind blank
  · rw [if_neg closes] at parsed
    rcases Except.bind_eq_ok.mp parsed with ⟨result, readEntries, parsed⟩
    rcases result with ⟨children, last⟩
    cases children with
    | none => cases parsed
    | some children =>
        have deeper : buffer.enter.Valid := valid.withDepth _
        have bound := skippedWhitespace_le bytes
        have loopValid := deeper.skip (show skippedWhitespace bytes ≤ buffer.enter.remaining.length by
          show _ ≤ buffer.remaining.length
          rw [split, List.length_cons]
          omega)
        -- the loop starts at the byte in front of the first entry
        have loopLeft : ∃ prior, (buffer.enter.skip (skippedWhitespace bytes)).remaining =
            prior :: atEntry := by
          rcases drop_prior kind.opening bound with ⟨prior, dropped⟩
          refine ⟨prior, ?_⟩
          rw [remaining_skip]
          show buffer.remaining.drop _ = _
          rw [split, dropped, entryEq]
        rcases loopLeft with ⟨prior, loopLeft⟩
        rcases below.entries kind _ loopValid prior atEntry children last loopLeft readEntries with
          ⟨lead, text, rest, entrySplit, blankLead, moved, derives⟩
        have lastValid := moved.valid loopValid (by
          rw [loopLeft, entrySplit]
          simp only [List.length_cons, List.length_append]
          omega)
        have lastLeft : last.remaining = rest := by
          rw [moved.remaining, loopLeft, entrySplit, Nat.add_comm 1, Nat.add_right_comm,
            List.drop_succ_cons, ← List.append_assoc, ← List.length_append, List.drop_left]
        rw [finishEntries, lastValid.guardedByte_eq, lastLeft, Except.ok_bind] at parsed
        by_cases finished : (rest.head? == some kind.closing) = true
        · have closingHead : rest.head? = some kind.closing := eq_of_beq finished
          cases rest with
          | nil => cases closingHead
          | cons closing behind =>
              cases closingHead
              rw [if_pos finished, lastValid.advance_eq (by rw [lastLeft]; simp),
                Except.ok_bind] at parsed
              cases parsed
              refine ⟨kind.opening :: (space ++ lead ++ (text ++ [kind.closing])), behind, ?_, ?_, ?_⟩
              · rw [split, spaceSplit, entrySplit]
                simp
              · have whole := (moved_skip buffer.enter _).trans moved
                refine ⟨whole.content_eq, whole.length_eq, ?_, ?_⟩
                · show last.depth - 1 = buffer.depth
                  rw [whole.depth_eq]
                  rfl
                · show last.offset + 1 = _
                  rw [whole.offset_eq, ← spaceLength]
                  simp only [List.length_cons, List.length_append, List.length_nil]
                  show buffer.offset + _ + 1 = _
                  omega
              · rw [limitEq]
                refine .filled kind ?_ (derives rfl)
                intro byte inside
                rcases List.mem_append.mp inside with inside | inside
                · exact blank byte inside
                · exact blankLead byte inside
        · rw [if_neg finished] at parsed
          cases parsed

/-- Every function of the parser recognizes its phrase, with any fuel. -/
theorem sound (consumes : library.ConsumesAtMost) (fuel : Nat) : Sound library fuel := by
  induction fuel with
  | zero =>
      refine ⟨?_, ?_, ?_⟩
      · intro start name buffer _ _ item after impossible
        cases impossible
      · intro kind start name buffer rest _ _ _ item after impossible
        cases kind <;> cases impossible
      · intro kind buffer _ prior bytes items after _ impossible
        cases kind <;> cases impossible
  | succ fuel below =>
      refine ⟨?_, ?_, ?_⟩
      · intro start name buffer fresh valid
        exact parseValue_sound consumes below fresh valid
      · intro kind start name buffer rest fresh valid split
        exact (parseContainer_sound below kind fresh valid split).recognizes
      · intro kind buffer valid
        exact parseEntries_sound below kind valid

end Soundness

end CJson
