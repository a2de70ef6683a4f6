import CJson.Grammar

/-!
# Whole documents

`cJSON_ParseWithOpts` on a C string, with the terminator required, accepts a
text exactly if it is a value with whitespace around it, behind an optional
byte order mark.  The terminating NUL is part of the buffer and counts as
whitespace, which is why the skipper, stepping back from the end, lands on it.
-/

namespace CJson

open CString ParseBuffer

/-- A text that is one value, and the tree it denotes: an optional byte order mark,
whitespace, the value, and whitespace up to the end.  It is a statement about the text
alone, without a cursor, an allocator or a terminator. -/
def Document (library : CLibrary) (text : Bytes) (item : Item) : Prop :=
  ∃ mark lead core tail, text = mark ++ (lead ++ (core ++ tail)) ∧
    (mark = [] ∨ mark = byteOrderMark) ∧ Blank lead ∧ Blank tail ∧
    Derives library (.value none) nestingLimit core [item]

variable {library : CLibrary} {buffer : ParseBuffer}

/-- What `skip_utf8_bom` skips: the mark, if something else follows it. -/
def markLength (bytes : Bytes) : Nat :=
  if 4 < bytes.length ∧ bytes.take 3 = byteOrderMark then 3 else 0

theorem markLength_le (bytes : Bytes) : markLength bytes ≤ bytes.length := by
  unfold markLength
  split <;> omega

theorem skipUtf8Bom_eq (valid : buffer.Valid) (start : buffer.offset = 0) :
    skipUtf8Bom buffer = .ok (some (buffer.skip (markLength buffer.remaining))) := by
  rw [skipUtf8Bom, if_neg (by simp [start]), valid.canAccess_eq, markLength]
  by_cases long : 4 < buffer.remaining.length
  · rw [if_pos (by simpa using long), valid.readSlice_eq (by omega), Except.ok_bind]
    by_cases marked : buffer.remaining.take 3 = byteOrderMark
    · rw [if_pos marked, valid.advance_eq (by omega), if_pos ⟨long, marked⟩]
      rfl
    · rw [if_neg marked, if_neg (fun both => marked both.2)]
      rfl
  · rw [if_neg (by simpa using long), if_neg (fun both => long both.1)]
    rfl

/-- Neither whitespace nor a value starts like a byte order mark. -/
theorem markLength_unmarked {lead rest : Bytes} {first : UInt8} (blank : Blank lead)
    (ascii : first < 0x80) : markLength (lead ++ first :: rest) = 0 := by
  rw [markLength, if_neg]
  rintro ⟨_, same⟩
  cases lead with
  | nil =>
      rw [List.nil_append, List.take_succ_cons] at same
      injection same with head _
      rw [head] at ascii
      exact absurd ascii (by decide)
  | cons byte lead =>
      rw [List.cons_append, List.take_succ_cons] at same
      injection same with head _
      have small := blank byte List.mem_cons_self
      rw [head] at small
      exact absurd small (by decide)

/-- Everything that is skipped in front of the value. -/
def leadLength (bytes : Bytes) : Nat :=
  markLength bytes + skippedWhitespace (bytes.drop (markLength bytes))

theorem leadLength_le (bytes : Bytes) : leadLength bytes ≤ bytes.length := by
  have mark := markLength_le bytes
  have skipped := skippedWhitespace_le (bytes.drop (markLength bytes))
  rw [List.length_drop] at skipped
  unfold leadLength
  omega

/-- The end of a parse with the terminator required: nothing but blanks may stand
between the value and a zero byte.  If something else does, the parse fails at that
place. -/
def finishDocument : Option Item × ParseBuffer -> Except Fault ParseOutcome
  | (none, buffer) => .ok (finishParseFailure buffer)
  | (some item, buffer) => do
      let buffer ← bufferSkipWhitespace buffer
      if ← endsInNul buffer then
        .ok { item := some item, parseEnd := buffer.offset, errorPosition := none }
      else .ok (finishParseFailure buffer)

/-- The buffer that is parsed for a C string, after the request for the root. -/
def documentBuffer (hooks : Hooks) (text : Bytes) : ParseBuffer :=
  ⟨text ++ [0], text.length + 1, 0, 0, (hooks.request nodeSize).2⟩

theorem documentBuffer_valid (hooks : Hooks) (text : Bytes) : (documentBuffer hooks text).Valid :=
  ⟨by simp [documentBuffer], Nat.zero_le _⟩

/-- The buffer that is parsed, after the request for the root. -/
def contentBuffer (hooks : Hooks) (content : Bytes) : ParseBuffer :=
  ⟨content, content.length, 0, 0, (hooks.request nodeSize).2⟩

/-- The end of a parse, which asks for the terminator only if it is told to.
Otherwise the parse ends right behind the value, whatever follows. -/
def finishParse (requireNullTerminated : Bool) (result : Option Item × ParseBuffer) :
    Except Fault ParseOutcome :=
  if requireNullTerminated then finishDocument result
  else match result with
    | (none, buffer) => .ok (finishParseFailure buffer)
    | (some item, buffer) =>
        .ok { item := some item, parseEnd := buffer.offset, errorPosition := none }

theorem cjsonParseWithLengthOpts_eq {hooks : Hooks} {content : Bytes} (nonempty : content ≠ [])
    (granted : (hooks.request nodeSize).1 = true) (requireNullTerminated : Bool) :
    cjsonParseWithLengthOpts library hooks content content.length requireNullTerminated =
      parseValue library (parseFuel content.length) newItem
        ((contentBuffer hooks content).skip (leadLength content)) >>=
          finishParse requireNullTerminated := by
  have valid : (contentBuffer hooks content).Valid := ⟨rfl, Nat.zero_le _⟩
  have bytes : (contentBuffer hooks content).remaining = content := rfl
  have marked := valid.skip (markLength_le (contentBuffer hooks content).remaining)
  have skips := marked.bufferSkipWhitespace_eq
  rw [remaining_skip, bytes, skip_skip] at skips
  have grants : ParseBuffer.granted ⟨content, content.length, 0, 0, hooks⟩ nodeSize = true := granted
  unfold cjsonParseWithLengthOpts parseDocument
  dsimp only [ParseState.buffer, ParseState.withBuffer, ParseState.requested, ParseState.delete]
  rw [if_neg (Nat.pos_iff_ne_zero.mp (List.length_pos_of_ne_nil nonempty)), if_neg (by simp [grants])]
  show ((skipUtf8Bom (contentBuffer hooks content) >>= _) >>= _) = _
  rw [skipUtf8Bom_eq valid rfl, Except.ok_bind, bytes]
  dsimp only
  rw [skips, Except.ok_bind]
  show ((parseValue library _ newItem _ >>= _) >>= _) = _
  rw [bind_assoc]
  congr 1
  funext result
  rcases result with ⟨_ | item, after⟩
  · cases requireNullTerminated <;> rfl
  cases requireNullTerminated with
  | false => rfl
  | true =>
      show ((bufferSkipWhitespace after >>= _) >>= _) = (bufferSkipWhitespace after >>= _)
      rw [bind_assoc]
      congr 1
      funext last
      show ((endsInNul last >>= _) >>= _) = (endsInNul last >>= _)
      rw [bind_assoc]
      congr 1
      funext terminated
      cases terminated <;> rfl

/-- Without a block for the root there is no tree. -/
theorem cjsonParseWithLengthOpts_refused {hooks : Hooks} {content : Bytes} (nonempty : content ≠ [])
    (refused : (hooks.request nodeSize).1 = false) {requireNullTerminated : Bool} :
    cjsonParseWithLengthOpts library hooks content content.length requireNullTerminated =
      .ok (finishParseFailure (contentBuffer hooks content)) := by
  have refuses : ParseBuffer.granted ⟨content, content.length, 0, 0, hooks⟩ nodeSize = false := refused
  unfold cjsonParseWithLengthOpts parseDocument
  dsimp only [ParseState.buffer, ParseState.withBuffer, ParseState.requested, ParseState.delete]
  rw [if_neg (Nat.pos_iff_ne_zero.mp (List.length_pos_of_ne_nil nonempty)), if_pos (by simp [refuses])]
  rfl

theorem cjsonParseWithOpts_eq {hooks : Hooks} (value : Bytes)
    (granted : (hooks.request nodeSize).1 = true) :
    cjsonParseWithOpts library hooks value true =
      parseValue library (parseFuel ((text value).length + 1)) newItem
        ((documentBuffer hooks (text value)).skip (leadLength (text value ++ [0]))) >>=
          finishDocument := by
  have size : (text value ++ [0]).length = (text value).length + 1 := List.length_append
  have parsed := @cjsonParseWithLengthOpts_eq library hooks _ (List.append_ne_nil_of_right_ne_nil (text value)
    (List.cons_ne_nil 0 [])) granted true
  rw [contentBuffer, size] at parsed
  exact parsed

/-- The skipper steps back to a terminator behind nothing but whitespace. -/
theorem skippedWhitespace_terminated {tail : Bytes} (blank : Blank tail) :
    skippedWhitespace (tail ++ [0]) = tail.length := by
  have all : whitespaceCount (tail ++ [0]) = (tail ++ [0]).length := by
    induction tail with
    | nil => rfl
    | cons byte tail hypothesis =>
        rw [List.cons_append, whitespaceCount, if_pos (blank byte List.mem_cons_self),
          hypothesis blank.tail, List.length_cons]
  rw [skippedWhitespace_eq, if_pos all]
  simp

/-- Behind the value there is whitespace and the terminator: then the parse succeeds,
and it ends at the terminator. -/
theorem finishDocument_complete {item : Item} {tail : Bytes} (valid : buffer.Valid)
    (left : buffer.remaining = tail ++ [0]) (blank : Blank tail) :
    finishDocument (some item, buffer) =
      .ok { item := some item, parseEnd := buffer.offset + tail.length, errorPosition := none } := by
  rw [finishDocument, valid.bufferSkipWhitespace_eq, left, skippedWhitespace_terminated blank,
    Except.ok_bind]
  have atEnd := valid.skip (show tail.length ≤ _ by rw [left, List.length_append]; omega)
  have atEndLeft : (buffer.skip tail.length).remaining = [0] := by
    rw [remaining_skip, left, List.drop_left]
  have inside := atEnd.remaining_length
  rw [atEndLeft] at inside
  rw [endsInNul, if_neg (Nat.not_le.mpr (Nat.lt_of_lt_of_eq (Nat.lt_succ_self _) inside)),
    read_head atEndLeft]
  rfl

/-- Where the value of a document begins. -/
theorem leadLength_marked {mark lead rest : Bytes} {first : UInt8} (marked : mark = [] ∨ mark = byteOrderMark)
    (blank : Blank lead) (large : 32 < first) (ascii : first < 0x80) (more : rest ≠ []) :
    leadLength (mark ++ (lead ++ first :: rest)) = mark.length + lead.length := by
  have markEq : markLength (mark ++ (lead ++ first :: rest)) = mark.length := by
    rcases marked with rfl | rfl
    · exact markLength_unmarked blank ascii
    · have positive := List.length_pos_of_ne_nil more
      rw [markLength, if_pos]
      · rfl
      · refine ⟨?_, rfl⟩
        simp only [byteOrderMark, List.length_append, List.length_cons, List.length_nil]
        omega
  rw [leadLength, markEq, List.drop_left, skippedWhitespace_blank blank large]

/-- A document is parsed to the end of its text, into the tree that the grammar gives
it. -/
theorem cjsonParseWithOpts_complete {hooks : Hooks} (succeeds : hooks.AlwaysSucceed) {value : Bytes}
    {item : Item} (document : Document library (text value) item) :
    cjsonParseWithOpts library hooks value true =
      .ok { item := some item, parseEnd := (text value).length, errorPosition := none } := by
  rcases document with ⟨mark, lead, core, tail, split, marked, blankLead, blankTail, derives⟩
  rcases derives_head derives with ⟨first, rest, rfl, large, _, _, ascii⟩
  have bytes : text value ++ [0] = mark ++ (lead ++ (first :: rest ++ (tail ++ [0]))) := by
    rw [split]
    simp
  have leadEq : leadLength (text value ++ [0]) = mark.length + lead.length := by
    rw [bytes, List.cons_append]
    exact leadLength_marked marked blankLead large ascii (by simp)
  have hooksEq : (hooks.request nodeSize).2 = hooks := by
    rw [Hooks.request_of_alwaysSucceed succeeds]
  have valid := documentBuffer_valid hooks (text value)
  have start : ((documentBuffer hooks (text value)).skip
      (leadLength (text value ++ [0]))).Valid :=
    valid.skip (leadLength_le (documentBuffer hooks (text value)).remaining)
  have startLeft : ((documentBuffer hooks (text value)).skip
      (leadLength (text value ++ [0]))).remaining = first :: rest ++ (tail ++ [0]) := by
    rw [remaining_skip, leadEq]
    show (text value ++ [0]).drop _ = _
    rw [bytes, ← List.drop_drop, List.drop_left, List.drop_left]
  have size := congrArg List.length bytes
  simp only [List.length_append, List.length_cons, List.length_nil] at size
  have ends : EndsNumber (tail ++ [0]) := endsNumber_blank blankTail (by decide)
  have covered : 3 * ((documentBuffer hooks (text value)).skip
      (leadLength (text value ++ [0]))).remaining.length + 3 ≤
      parseFuel ((text value).length + 1) := by
    rw [startLeft, parseFuel]
    simp only [List.length_append, List.length_cons, List.length_nil]
    omega
  rcases reads_of_derives derives newItem _ _ _ fresh_newItem start
    (by show Hooks.AlwaysSucceed (hooks.request nodeSize).2; rw [hooksEq]; exact succeeds)
    (by show 0 + nestingLimit ≤ nestingLimit; omega) startLeft ends covered with
    ⟨found, same, read⟩
  cases same
  have last := start.skip (show (first :: rest).length ≤ _ by
    rw [startLeft, List.length_append]
    omega)
  have lastLeft : (((documentBuffer hooks (text value)).skip (leadLength (text value ++ [0]))).skip
      (first :: rest).length).remaining = tail ++ [0] := by
    rw [remaining_skip, startLeft, List.drop_left]
  rw [cjsonParseWithOpts_eq value (succeeds 0 nodeSize), read, Except.ok_bind,
    finishDocument_complete last lastLeft blankTail]
  simp only [skip_offset, leadEq]
  congr 2
  show 0 + _ + _ + _ = _
  simp only [List.length_cons]
  omega

theorem endsInNul_sound (ended : endsInNul buffer = .ok true) :
    ∃ rest, buffer.remaining = 0 :: rest := by
  unfold endsInNul at ended
  by_cases atEnd : buffer.length ≤ buffer.offset
  · rw [if_pos atEnd] at ended
    cases ended
  rw [if_neg atEnd] at ended
  rcases Except.bind_eq_ok.mp ended with ⟨byte, read, same⟩
  have isNul : byte = 0 := by simpa using same
  refine ⟨buffer.content.drop (buffer.offset + 1), ?_⟩
  rw [ParseBuffer.remaining, drop_eq_cons (read_eq_ok.mp read), isNul]

/-- The skipper stops in front of a blank byte only if that is the last one. -/
theorem blank_is_last {rest behind : Bytes} {byte : UInt8} (small : byte ≤ 32)
    (stops : rest.drop (skippedWhitespace rest) = byte :: behind) : behind = [] := by
  have again := skippedWhitespace_drop rest
  rw [stops] at again
  cases behind with
  | nil => rfl
  | cons next behind =>
      rw [skippedWhitespace, if_pos small] at again
      cases again

theorem finishDocument_sound {found item : Item} {outcome : ParseOutcome} (valid : buffer.Valid)
    (finished : finishDocument (some found, buffer) = .ok outcome) (accepted : outcome.item = some item) :
    found = item ∧ ∃ tail, buffer.remaining = tail ++ [0] ∧ Blank tail := by
  rw [finishDocument, valid.bufferSkipWhitespace_eq, Except.ok_bind] at finished
  rcases Except.bind_eq_ok.mp finished with ⟨terminated, ended, finished⟩
  cases terminated with
  | false =>
      cases finished
      cases accepted
  | true =>
      cases finished
      injection accepted with same
      rcases endsInNul_sound ended with ⟨behind, nul⟩
      rw [remaining_skip] at nul
      cases blank_is_last (show (0 : UInt8) ≤ 32 by decide) nul
      rcases skip_split buffer.remaining with ⟨tail, left, split, blank, _, leftEq⟩
      rw [nul] at leftEq
      subst leftEq
      exact ⟨same, tail, split, blank⟩

/-- An accepted text is a document, and the tree is the one that the grammar gives it. -/
theorem cjsonParseWithOpts_sound (consumes : library.ConsumesAtMost) {hooks : Hooks} {value : Bytes}
    {outcome : ParseOutcome} {item : Item}
    (parsed : cjsonParseWithOpts library hooks value true = .ok outcome)
    (accepted : outcome.item = some item) : Document library (text value) item := by
  have granted : (hooks.request nodeSize).1 = true := by
    cases granted : (hooks.request nodeSize).1 with
    | true => rfl
    | false =>
        have size : (text value ++ [0]).length = (text value).length + 1 := List.length_append
        rw [cjsonParseWithOpts, ← size, cjsonParseWithLengthOpts_refused (by simp) granted] at parsed
        cases parsed
        cases accepted
  rw [cjsonParseWithOpts_eq value granted] at parsed
  have valid := documentBuffer_valid hooks (text value)
  have start : ((documentBuffer hooks (text value)).skip
      (leadLength (text value ++ [0]))).Valid :=
    valid.skip (leadLength_le (documentBuffer hooks (text value)).remaining)
  have startLeft : ((documentBuffer hooks (text value)).skip
      (leadLength (text value ++ [0]))).remaining =
      (text value ++ [0]).drop (leadLength (text value ++ [0])) := by
    rw [remaining_skip]
    rfl
  rcases Except.bind_eq_ok.mp parsed with ⟨result, read, finished⟩
  rcases result with ⟨found, after⟩
  cases found with
  | none =>
      cases finished
      cases accepted
  | some found =>
      rcases (sound consumes _).value newItem none _ fresh_newItem start found after read with
        ⟨core, rest, split, moved, derives⟩
      rw [startLeft] at split
      have afterValid := moved.valid start (by rw [startLeft, split]; simp)
      have afterLeft : after.remaining = rest := by
        rw [moved.remaining, startLeft, split, List.drop_left]
      rcases finishDocument_sound afterValid finished accepted with ⟨rfl, tail, left, blankTail⟩
      rw [afterLeft] at left
      subst left
      rcases skip_split ((text value ++ [0]).drop (markLength (text value ++ [0]))) with
        ⟨lead, fromCore, leadSplit, blankLead, leadLengthEq, coreEq⟩
      have coreSplit : fromCore = core ++ (tail ++ [0]) := by
        rw [coreEq, List.drop_drop]
        exact split
      have whole : text value ++ [0] = ((text value ++ [0]).take (markLength (text value ++ [0])) ++
          (lead ++ (core ++ tail))) ++ [0] := by
        nth_rewrite 1 [← List.take_append_drop (markLength (text value ++ [0])) (text value ++ [0])]
        rw [leadSplit, coreSplit]
        simp
      refine ⟨_, lead, core, tail, List.append_cancel_right whole, ?_, blankLead, blankTail, ?_⟩
      · unfold markLength
        split
        · rename_i marked
          exact Or.inr marked.2
        · exact Or.inl rfl
      · have limitEq : nestingLimit - ((documentBuffer hooks (text value)).skip
            (leadLength (text value ++ [0]))).depth = nestingLimit := rfl
        rw [limitEq] at derives
        apply derives
        exact endsNumber_blank blankTail (by decide)

/-- With allocation succeeding, the accepted texts are the documents, and the
parsed tree is the one the text denotes. -/
theorem accepts_iff_document (consumes : library.ConsumesAtMost) {hooks : Hooks}
    (succeeds : hooks.AlwaysSucceed) {value : Bytes} {item : Item} :
    (∃ outcome, cjsonParseWithOpts library hooks value true = .ok outcome ∧
      outcome.item = some item) ↔ Document library (text value) item := by
  constructor
  · rintro ⟨outcome, parsed, accepted⟩
    exact cjsonParseWithOpts_sound consumes parsed accepted
  · intro document
    exact ⟨_, cjsonParseWithOpts_complete succeeds document, rfl⟩

end CJson
