import CJson.Detach

/-!
# Escaped tokens

`utils.rs` turns a member name into a pointer token by writing `~1` for every
`/` and `~0` for every `~`.  The walker compares names with such a token byte by
byte and undoes the escapes on the way.  `apply_patch` decodes its last token in
place instead, with a cursor that reads and a cursor that writes.  The second
one only ever writes the bytes that escapes stand for: once it has fallen
behind, ordinary bytes stay where they were.
-/

namespace CJson

open CString

/-- `pointer_encoded_length`: a byte for each byte of the name, and one more for each
tilde and each slash.  The name ends at its first zero byte. -/
def pointerEncodedLength : Bytes -> Nat
  | [] => 0
  | byte :: string =>
      if byte = 0 then 0
      else
        -- character needs to be escaped?
        (if byte = tilde ∨ byte = slash then 1 else 0) + 1 + pointerEncodedLength string

/-- `encode_string_as_pointer`, with the block of memory that `destination`
points into. -/
def encodeStringAsPointer : Bytes -> Nat -> Bytes -> Bytes
  | block, destination, [] => block.set destination 0
  | block, destination, byte :: source =>
      if byte = 0 then block.set destination 0
      else if byte = slash then
        encodeStringAsPointer ((block.set destination tilde).set (destination + 1) 49)
          (destination + 2) source
      else if byte = tilde then
        encodeStringAsPointer ((block.set destination tilde).set (destination + 1) 48)
          (destination + 2) source
      else encodeStringAsPointer (block.set destination byte) (destination + 1) source

/-! ## The token of a name -/

/-- The escape of one byte. -/
def tokenByte (byte : UInt8) : Bytes :=
  if byte = slash then [tilde, 49] else if byte = tilde then [tilde, 48] else [byte]

/-- The token that RFC 6901 gives a name. -/
def escape (name : Bytes) : Bytes := name.flatMap tokenByte

@[simp] theorem escape_nil : escape [] = [] := rfl

theorem escape_cons (byte : UInt8) (name : Bytes) :
    escape (byte :: name) = tokenByte byte ++ escape name := List.flatMap_cons

theorem tokenByte_slash : tokenByte slash = [tilde, 49] := rfl

theorem tokenByte_tilde : tokenByte tilde = [tilde, 48] := rfl

theorem tokenByte_plain {byte : UInt8} (notSlash : byte ≠ slash) (notTilde : byte ≠ tilde) :
    tokenByte byte = [byte] := by
  rw [tokenByte, if_neg notSlash, if_neg notTilde]

/-- A name without the two bytes is its own token. -/
theorem escape_eq_self {name : Bytes} (noSlash : slash ∉ name) (noTilde : tilde ∉ name) :
    escape name = name := by
  induction name with
  | nil => rfl
  | cons byte name ih =>
      have notSlash : byte ≠ slash := fun same => noSlash (same ▸ List.mem_cons_self)
      have notTilde : byte ≠ tilde := fun same => noTilde (same ▸ List.mem_cons_self)
      rw [escape_cons, tokenByte_plain notSlash notTilde, ih (fun inside => noSlash (List.mem_cons_of_mem _ inside))
        (fun inside => noTilde (List.mem_cons_of_mem _ inside)), List.singleton_append]

theorem unescape_escape (name : Bytes) : unescape (escape name) = some name := by
  induction name with
  | nil => rfl
  | cons byte name ih =>
      rw [escape_cons]
      by_cases isSlash : byte = slash
      · rw [isSlash, tokenByte_slash, List.cons_append, List.singleton_append, unescape_one, ih]
        rfl
      · by_cases isTilde : byte = tilde
        · rw [isTilde, tokenByte_tilde, List.cons_append, List.singleton_append, unescape_zero, ih]
          rfl
        · rw [tokenByte_plain isSlash isTilde, List.singleton_append, unescape_plain isTilde, ih]
          rfl

theorem slash_not_mem_escape (name : Bytes) : slash ∉ escape name := by
  intro member
  rcases List.mem_flatMap.mp member with ⟨byte, _, inside⟩
  by_cases isSlash : byte = slash
  · rw [isSlash] at inside
    exact absurd inside (by decide)
  · by_cases isTilde : byte = tilde
    · rw [isTilde] at inside
      exact absurd inside (by decide)
    · rw [tokenByte_plain isSlash isTilde, List.mem_singleton] at inside
      exact isSlash inside.symm

theorem zero_not_mem_escape {name : Bytes} (free : (0 : UInt8) ∉ name) :
    (0 : UInt8) ∉ escape name := by
  intro member
  rcases List.mem_flatMap.mp member with ⟨byte, isByte, inside⟩
  by_cases isSlash : byte = slash
  · rw [isSlash] at inside
    exact absurd inside (by decide)
  · by_cases isTilde : byte = tilde
    · rw [isTilde] at inside
      exact absurd inside (by decide)
    · rw [tokenByte_plain isSlash isTilde, List.mem_singleton] at inside
      exact free (inside ▸ isByte)

theorem length_le_length_escape (name : Bytes) : name.length ≤ (escape name).length := by
  induction name with
  | nil => exact le_rfl
  | cons byte name ih =>
      have one : 1 ≤ (tokenByte byte).length := by
        rw [tokenByte]
        split_ifs <;> simp
      rw [escape_cons, List.length_append, List.length_cons]
      omega

theorem pointerEncodedLength_eq (string : Bytes) :
    pointerEncodedLength string = (escape (text string)).length := by
  induction string with
  | nil => rfl
  | cons byte string ih =>
      rw [pointerEncodedLength, text_cons]
      by_cases zero : byte = 0
      · rw [if_pos zero, if_pos zero]
        rfl
      · rw [if_neg zero, if_neg zero, escape_cons, List.length_append, ih]
        congr 1
        by_cases isSlash : byte = slash
        · rw [isSlash]
          rfl
        · by_cases isTilde : byte = tilde
          · rw [isTilde]
            rfl
          · simp [tokenByte_plain isSlash isTilde, isSlash, isTilde]

private theorem set_behind (front : Bytes) (byte other : UInt8) (rest : Bytes) :
    (front ++ other :: rest).set front.length byte = front ++ byte :: rest := by
  rw [List.set_append_right _ _ le_rfl, Nat.sub_self, List.set_cons_zero]

private theorem encodeStringAsPointer_behind (front rest source : Bytes)
    (room : (escape (text source)).length < rest.length) :
    encodeStringAsPointer (front ++ rest) front.length source =
      front ++ (escape (text source) ++ 0 :: rest.drop ((escape (text source)).length + 1)) := by
  have terminator : ∀ {front rest : Bytes}, 0 < rest.length ->
      (front ++ rest).set front.length 0 = front ++ 0 :: rest.drop 1 := by
    intro front rest nonempty
    cases rest with
    | nil => exact absurd nonempty (Nat.lt_irrefl 0)
    | cons other rest => exact set_behind front 0 other rest
  induction source generalizing front rest with
  | nil => exact terminator room
  | cons byte source ih =>
      rw [encodeStringAsPointer]
      by_cases zero : byte = 0
      · simp only [text_cons, if_pos zero, escape_nil] at room ⊢
        exact terminator room
      rw [if_neg zero]
      rw [text_cons, if_neg zero, escape_cons] at room ⊢
      rw [List.length_append] at room ⊢
      have escaped : ∀ code : UInt8, 1 + 1 + (escape (text source)).length < rest.length ->
          encodeStringAsPointer
              (((front ++ rest).set front.length tilde).set (front.length + 1) code)
              (front.length + 2) source =
            front ++ ([tilde, code] ++ escape (text source) ++
              0 :: rest.drop (1 + 1 + (escape (text source)).length + 1)) := by
        intro code bound
        match rest with
        | [] => exact absurd bound (Nat.not_lt_zero _)
        | [_] => exact absurd bound (by rw [List.length_singleton]; omega)
        | first :: second :: rest =>
            have moved := ih (front ++ [tilde, code]) rest
              (by simp only [List.length_cons] at bound; omega)
            have second := set_behind (front ++ [tilde]) code second rest
            rw [List.length_append, List.append_assoc, List.append_assoc] at moved second
            rw [set_behind]
            simp only [List.length_cons, List.length_nil, List.cons_append, List.nil_append,
              Nat.zero_add, Nat.reduceAdd] at moved second
            rw [second, moved]
            have behind : 1 + 1 + (escape (text source)).length + 1 =
                (escape (text source)).length + 1 + 1 + 1 := by omega
            rw [behind]
            rfl
      by_cases isSlash : byte = slash
      · rw [if_pos isSlash]
        rw [isSlash] at room ⊢
        exact escaped 49 room
      rw [if_neg isSlash]
      by_cases isTilde : byte = tilde
      · rw [if_pos isTilde]
        rw [isTilde] at room ⊢
        exact escaped 48 room
      · rw [if_neg isTilde]
        rw [tokenByte_plain isSlash isTilde] at room ⊢
        cases rest with
        | nil => exact absurd room (Nat.not_lt_zero _)
        | cons other rest =>
            rw [set_behind]
            have moved := ih (front ++ [byte]) rest
              (by simp only [List.length_cons, List.length_nil] at room; omega)
            rw [List.length_append, List.append_assoc, List.append_assoc,
              List.length_singleton] at moved
            rw [← List.singleton_append, moved]
            have behind : [byte].length + (escape (text source)).length + 1 =
                (escape (text source)).length + 1 + 1 := by
              rw [List.length_singleton]
              omega
            rw [behind]
            rfl

/-- The encoder writes the token and a terminator, and touches nothing else.  The room
that it needs is exactly what `pointer_encoded_length` answers, and one more. -/
theorem encodeStringAsPointer_eq {block : Bytes} {destination : Nat} (source : Bytes)
    (room : destination + pointerEncodedLength source < block.length) :
    encodeStringAsPointer block destination source =
      block.take destination ++ (escape (text source) ++
        0 :: block.drop (destination + pointerEncodedLength source + 1)) := by
  rw [pointerEncodedLength_eq] at room ⊢
  have start : (block.take destination).length = destination :=
    List.length_take_of_le (by omega)
  have behind := encodeStringAsPointer_behind (block.take destination) (block.drop destination)
    source (by rw [List.length_drop]; omega)
  rw [List.take_append_drop, start, List.drop_drop] at behind
  rw [behind, Nat.add_assoc]

/-! ## Decoding in place -/

/-- What `decode_pointer_inplace` leaves where `memory` stood, after it has read
the token of a name: the bytes of escapes are written, an unescaped `/` one
place too far, and no others. -/
def overlay : Bytes -> Bytes -> Bytes
  | _, [] => []
  | [], _ :: memory => 0 :: memory
  | byte :: name, there :: memory =>
      (if byte = tilde then tilde else there) ::
        overlay name (if byte = slash then memory.set 0 slash else memory)

private theorem take_set_at {block : Bytes} {position : Nat} (inside : position < block.length)
    (byte : UInt8) : (block.set position byte).take (position + 1) = block.take position ++ [byte] := by
  rw [List.set_eq_take_append_cons_drop, if_pos inside, List.take_append, List.length_take_of_le inside.le,
    List.take_of_length_le (by rw [List.length_take]; omega), Nat.add_sub_cancel_left]
  rfl

private theorem exists_split {block : Bytes} {position : Nat} (inside : position < block.length) :
    ∃ there memory, block.drop position = there :: memory ∧ block.drop (position + 1) = memory ∧
      block.take (position + 1) = block.take position ++ [there] := by
  have split : block.drop position = block[position] :: block.drop (position + 1) :=
    List.drop_eq_getElem_cons inside
  refine ⟨_, _, split, rfl, ?_⟩
  rw [List.take_add, split]
  rfl

/-- The decoder, at work on the token of `name`: `string` has read up to there,
`decoded` is not in front of it. -/
theorem decodePointerLoop_eq {fuel string decoded : Nat} {block name rest : Bytes}
    (behind : decoded ≤ string) (ahead : block.drop string = escape name ++ rest)
    (ended : first rest = 0) (free : (0 : UInt8) ∉ name) (enough : name.length < fuel) :
    decodePointerLoop fuel block string decoded =
      block.take decoded ++ overlay name (block.drop decoded) := by
  induction name generalizing fuel block string decoded with
  | nil =>
      cases fuel with
      | zero => exact absurd enough (Nat.lt_irrefl 0)
      | succ fuel =>
          rw [decodePointerLoop, ahead, escape_nil, List.nil_append, if_pos ended,
            List.set_eq_take_append_cons_drop]
          by_cases inside : decoded < block.length
          · obtain ⟨there, memory, split, later, _⟩ := exists_split inside
            rw [if_pos inside, split, overlay, later]
          · have outside := List.drop_eq_nil_of_le (not_lt.mp inside)
            rw [if_neg inside, outside, overlay, List.append_nil, List.take_of_length_le (not_lt.mp inside)]
  | cons byte name ih =>
      cases fuel with
      | zero => exact absurd enough (Nat.not_lt_zero _)
      | succ fuel =>
          have reading : string < block.length := by
            have length := congrArg List.length ahead
            have some := length_le_length_escape (byte :: name)
            rw [List.length_drop, List.length_append] at length
            rw [List.length_cons] at some
            omega
          have inside : decoded < block.length := lt_of_le_of_lt behind reading
          obtain ⟨there, memory, split, later, sofar⟩ := exists_split inside
          have nonzero : byte ≠ 0 := fun zero => free (zero ▸ List.mem_cons_self)
          have restFree : (0 : UInt8) ∉ name := fun member => free (List.mem_cons_of_mem _ member)
          have restEnough : name.length < fuel := Nat.lt_of_succ_lt_succ enough
          rw [escape_cons, List.append_assoc] at ahead
          rw [decodePointerLoop, split, overlay]
          by_cases isSlash : byte = slash
          · subst isSlash
            have first₂ : first (block.drop (string + 1)) = 49 := by
              rw [← List.drop_drop, ahead]
              rfl
            have next : (block.set (decoded + 1) slash).drop (string + 2) =
                escape name ++ rest := by
              rw [List.drop_set_of_lt (by omega), ← List.drop_drop, ahead]
              rfl
            rw [ahead, first₂, ih (by omega) next restFree restEnough]
            rw [List.take_set_of_le le_rfl, List.drop_set, if_neg (Nat.lt_irrefl _), Nat.sub_self,
              sofar, later, List.append_assoc]
            rfl
          · by_cases isTilde : byte = tilde
            · subst isTilde
              have first₂ : first (block.drop (string + 1)) = 48 := by
                rw [← List.drop_drop, ahead]
                rfl
              have next : (block.set decoded tilde).drop (string + 2) = escape name ++ rest := by
                rw [List.drop_set_of_lt (by omega), ← List.drop_drop, ahead]
                rfl
              rw [ahead, first₂, ih (by omega) next restFree restEnough]
              rw [take_set_at inside, List.drop_set_of_lt (Nat.lt_succ_self _), later,
                List.append_assoc]
              rfl
            · rw [tokenByte_plain isSlash isTilde] at ahead
              have next : block.drop (string + 1) = escape name ++ rest := by
                rw [← List.drop_drop, ahead]
                rfl
              rw [ahead, List.singleton_append, first_cons, if_neg nonzero, if_neg isTilde,
                if_neg isTilde, if_neg isSlash, ih (by omega) next restFree restEnough, sofar, later,
                List.append_assoc]
              rfl

/-- What `decode_pointer_inplace` makes of the token of a name. -/
theorem decodePointerInplace_escape {name rest : Bytes} (free : (0 : UInt8) ∉ name)
    (ended : first rest = 0) :
    decodePointerInplace (escape name ++ rest) = overlay name (escape name ++ rest) := by
  have enough : name.length < (escape name ++ rest).length + 1 := by
    have length := length_le_length_escape name
    rw [List.length_append]
    omega
  rw [decodePointerInplace, decodePointerLoop_eq (le_refl 0) List.drop_zero ended free enough]
  rfl

/-! ## When decoding undoes encoding -/

/-- Every byte of the name other than `~` stands at its own place in the token of the
name as well.  The decoder of patch paths never moves an ordinary byte, and this is
what has to hold of a name for it to come out right nevertheless.  A name with a `/`
fails it, and so does one that goes on with anything but `~` behind its first `~`. -/
def KeepsPlaces (name : Bytes) : Prop :=
  ∀ (position : Nat) (byte : UInt8), name[position]? = some byte -> byte ≠ tilde ->
    (escape name)[position]? = some byte

private theorem text_overlay_iff {name memory : Bytes} (free : (0 : UInt8) ∉ name)
    (room : name.length ≤ memory.length) (noSlash : slash ∉ memory.take name.length) :
    text (overlay name memory) = name ↔
      ∀ (position : Nat) (byte : UInt8), name[position]? = some byte -> byte ≠ tilde ->
        memory[position]? = some byte := by
  induction name generalizing memory with
  | nil =>
      cases memory with
      | nil => simp [overlay]
      | cons there memory => simp [overlay, text_cons]
  | cons byte name ih =>
      cases memory with
      | nil => exact absurd room (Nat.not_lt_zero _)
      | cons there memory =>
          have nonzero : byte ≠ 0 := fun zero => free (zero ▸ List.mem_cons_self)
          rw [List.length_cons, List.take_succ_cons, List.mem_cons, not_or] at noSlash
          have tailIff := @ih memory (fun member => free (List.mem_cons_of_mem _ member))
            (Nat.le_of_succ_le_succ room) noSlash.2
          have atStart : ∀ {written : UInt8} {behind : Bytes},
              text (written :: behind) = byte :: name ↔ written = byte ∧ text behind = name := by
            intro written behind
            rw [text_cons]
            by_cases zero : written = 0
            · rw [if_pos zero]
              exact iff_of_false (fun impossible => nomatch impossible)
                (fun both => nonzero (both.1 ▸ zero))
            · rw [if_neg zero, List.cons.injEq]
          have places : (∀ (position : Nat) (other : UInt8),
              (byte :: name)[position]? = some other -> other ≠ tilde ->
                (there :: memory)[position]? = some other) ↔
              (byte ≠ tilde -> there = byte) ∧
                ∀ (position : Nat) (other : UInt8), name[position]? = some other ->
                  other ≠ tilde -> memory[position]? = some other := by
            constructor
            · intro kept
              exact ⟨fun plain => Option.some.inj (kept 0 byte rfl plain),
                fun position other stored plain => kept (position + 1) other stored plain⟩
            · rintro ⟨head, tail⟩ position other stored plain
              cases position with
              | zero =>
                  cases stored
                  exact congrArg some (head plain)
              | succ position => exact tail position other stored plain
          rw [overlay, atStart, places]
          by_cases isSlash : byte = slash
          · subst isSlash
            exact iff_of_false (fun both => noSlash.1 both.1.symm)
              (fun both => noSlash.1 (both.1 slash_ne_tilde).symm)
          · rw [if_neg isSlash, tailIff]
            by_cases isTilde : byte = tilde <;> simp [isTilde, eq_comm]

/-- Decoding in place gives a name back from its token exactly when the name keeps
its places. -/
theorem decode_escape_iff {name rest : Bytes} (free : (0 : UInt8) ∉ name) (ended : first rest = 0) :
    text (decodePointerInplace (escape name ++ rest)) = name ↔ KeepsPlaces name := by
  have shorter := length_le_length_escape name
  rw [decodePointerInplace_escape free ended, text_overlay_iff free]
  · have inToken : ∀ (position : Nat) (byte : UInt8), name[position]? = some byte ->
        (escape name ++ rest)[position]? = (escape name)[position]? := by
      intro position byte stored
      have inside := (List.getElem?_eq_some_iff.mp stored).1
      exact List.getElem?_append_left (by omega)
    constructor
    · intro kept position byte stored plain
      rw [← inToken position byte stored]
      exact kept position byte stored plain
    · intro kept position byte stored plain
      rw [inToken position byte stored]
      exact kept position byte stored plain
  · rw [List.length_append]
    omega
  · rw [List.take_append_of_le_length shorter]
    exact fun member => slash_not_mem_escape name (List.mem_of_mem_take member)

/-- What the encoder leaves in a block with enough room for it. -/
theorem encodeStringAsPointer_start {block name : Bytes} (free : (0 : UInt8) ∉ name)
    (room : pointerEncodedLength name < block.length) :
    ∃ rest, encodeStringAsPointer block 0 name = escape name ++ 0 :: rest := by
  have encoded := @encodeStringAsPointer_eq block 0 name (by rwa [Nat.zero_add])
  rw [List.take_zero, List.nil_append, text_eq_self free] at encoded
  exact ⟨_, encoded⟩

/-- Decoding in place undoes encoding for exactly the names that keep their
places. -/
theorem decode_encode_iff {block name : Bytes} (free : (0 : UInt8) ∉ name)
    (room : pointerEncodedLength name < block.length) :
    text (decodePointerInplace (encodeStringAsPointer block 0 name)) = name ↔ KeepsPlaces name := by
  obtain ⟨rest, encoded⟩ := encodeStringAsPointer_start free room
  rw [encoded]
  exact decode_escape_iff free rfl

end CJson
