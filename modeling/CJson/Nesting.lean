import CJson.Terminated
import CJson.PrintParse

/-!
# The nesting limit

Parser and printer count the containers around a value and refuse to enter one
too many.  The counter says nothing about siblings: a successful `parse_value`
leaves it where it was, so the limit is one on the nesting of the whole tree, and
it is exact.
-/

namespace CJson

open CString ParseBuffer PrintBuffer

variable {library : CLibrary}

theorem nesting_finishContainer (name : Option Bytes) (kind : Container) (items : List Item) :
    (finishContainer (named name) kind.base items).nesting = Item.nestingBelow items + 1 := by
  cases kind <;> rfl

theorem nestingBelow_singleton (item : Item) : Item.nestingBelow [item] = item.nesting :=
  Nat.max_zero _

/-! ## The limit of a phrase -/

/-- A phrase nests as deeply as the nodes it denotes. -/
theorem Derives.nesting_le {phrase : Phrase} {limit : Nat} {text : Bytes} {items : List Item}
    (derives : Derives library phrase limit text items) : Item.nestingBelow items ≤ limit := by
  induction derives with
  | null => exact Nat.zero_le _
  | false => exact Nat.zero_le _
  | true => exact Nat.zero_le _
  | string _ => exact Nat.zero_le _
  | number _ _ => exact Nat.zero_le _
  | empty kind _ =>
      rw [nestingBelow_singleton, nesting_finishContainer]
      exact Nat.succ_le_succ (Nat.zero_le _)
  | filled kind _ _ below =>
      rw [nestingBelow_singleton, nesting_finishContainer]
      exact Nat.succ_le_succ below
  | element _ below => exact below
  | member _ _ _ _ below => exact below
  | last _ _ below => exact below
  | more _ _ _ _ first others =>
      rw [nestingBelow_singleton] at first
      exact max_le first others

/-- No other limit than that of its nodes is put on a phrase. -/
theorem Derives.within {phrase : Phrase} {limit : Nat} {text : Bytes} {items : List Item}
    (derives : Derives library phrase limit text items) {other : Nat}
    (shallow : Item.nestingBelow items ≤ other) : Derives library phrase other text items := by
  induction derives generalizing other with
  | null => exact .null
  | false => exact .false
  | true => exact .true
  | string accepted => exact .string accepted
  | number start accepted => exact .number start accepted
  | empty kind blank =>
      rw [nestingBelow_singleton, nesting_finishContainer] at shallow
      rcases exists_fuel shallow with ⟨less, rfl, _⟩
      exact .empty kind blank
  | filled kind blank _ below =>
      rw [nestingBelow_singleton, nesting_finishContainer] at shallow
      rcases exists_fuel shallow with ⟨less, rfl, covers⟩
      exact .filled kind blank (below covers)
  | element _ below => exact .element (below shallow)
  | member accepted blankSpace blankGap _ below => exact .member accepted blankSpace blankGap (below shallow)
  | last blank _ below => exact .last blank (below shallow)
  | more blankSpace blankGap _ _ first others =>
      rw [Item.nestingBelow] at shallow
      rw [nestingBelow_singleton] at first
      exact .more blankSpace blankGap (first (le_trans (le_max_left _ _) shallow))
        (others (le_trans (le_max_right _ _) shallow))

/-! ## Values that are nested too deeply -/

/-- That the parser gives up on a phrase whose nodes go below the limit.  The three
clauses are those of `Derives`, for a value, for an entry and for the entries of a
container; each asks for fuel in proportion to what is left to read. -/
def Refuses (library : CLibrary) : Phrase -> Bytes -> List Item -> Prop
  | .value name, text, items =>
      ∀ (start : Item) (buffer : ParseBuffer) (rest : Bytes) (fuel : Nat), Fresh start name ->
        buffer.Valid -> buffer.hooks.AlwaysSucceed -> buffer.depth ≤ nestingLimit ->
        nestingLimit < buffer.depth + Item.nestingBelow items ->
        buffer.remaining = text ++ rest -> EndsNumber rest ->
        3 * buffer.remaining.length + 3 ≤ fuel ->
        ∃ after, parseValue library fuel start buffer = .ok (none, after)
  | .entry kind, text, items =>
      ∀ (buffer : ParseBuffer) (rest : Bytes) (fuel : Nat),
        buffer.Valid -> buffer.hooks.AlwaysSucceed -> buffer.depth ≤ nestingLimit ->
        nestingLimit < buffer.depth + Item.nestingBelow items ->
        buffer.remaining = text ++ rest -> EndsNumber rest ->
        3 * buffer.remaining.length + 3 ≤ fuel ->
        ∃ after, parseEntry library fuel kind buffer = .ok (none, after)
  | .entries kind, text, items =>
      ∀ (buffer : ParseBuffer) (prior : UInt8) (space rest : Bytes) (fuel : Nat),
        buffer.Valid -> buffer.hooks.AlwaysSucceed -> buffer.depth ≤ nestingLimit ->
        nestingLimit < buffer.depth + Item.nestingBelow items ->
        Blank space -> buffer.remaining = prior :: (space ++ (text ++ kind.closing :: rest)) ->
        3 * buffer.remaining.length + 1 ≤ fuel ->
        ∃ after, parseEntries library kind fuel buffer = .ok (none, after)

/-- What is not a container is never too deep. -/
theorem refuses_leaf {name : Option Bytes} {text : Bytes} {item : Item} (leaf : item.nesting = 0) :
    Refuses library (.value name) text [item] := by
  intro start buffer rest fuel fresh valid succeeds within deep
  rw [nestingBelow_singleton, leaf] at deep
  omega

/-- Below the limit a container is not entered. -/
theorem parseContainer_deep {fuel : Nat} (kind : Container) (start : Item) {buffer : ParseBuffer}
    (deep : nestingLimit ≤ buffer.depth) :
    parseContainer library kind (fuel + 1) start buffer = .ok (none, buffer) := by
  cases kind with
  | array => exact if_pos deep
  | object => exact if_pos deep

theorem refuses_empty {name : Option Bytes} (kind : Container) (space : Bytes) :
    Refuses library (.value name) (kind.opening :: (space ++ [kind.closing]))
      [finishContainer (named name) kind.base []] := by
  intro start buffer rest fuel _ valid _ _ deep split _ enough
  rw [nestingBelow_singleton, nesting_finishContainer, Item.nestingBelow] at deep
  rcases exists_fuel enough with ⟨less, rfl, covered⟩
  rcases exists_fuel covered with ⟨least, rfl, _⟩
  refine ⟨buffer, ?_⟩
  rw [parseValue_container kind start valid split, parseContainer_deep kind start (by omega)]

theorem refuses_filled {name : Option Bytes} {limit : Nat} (kind : Container) {space text : Bytes}
    {items : List Item} (blank : Blank space) (derives : Derives library (.entries kind) limit text items)
    (entries : Refuses library (.entries kind) text items) :
    Refuses library (.value name) (kind.opening :: (space ++ (text ++ [kind.closing])))
      [finishContainer (named name) kind.base items] := by
  intro start buffer rest fuel _ valid succeeds within deep split _ enough
  rw [nestingBelow_singleton, nesting_finishContainer] at deep
  rcases exists_fuel enough with ⟨less, rfl, covered⟩
  rcases exists_fuel covered with ⟨least, rfl, covers⟩
  by_cases shallow : buffer.depth < nestingLimit
  · rcases @parseValue_filled _ _ kind start _ _ _ rest _ least valid blank derives split shallow with
      ⟨parsed, inside, prior, left⟩
    have size := congrArg List.length split
    simp only [List.length_cons, List.length_append, List.length_nil] at size
    have deeper : buffer.enter.Valid := valid.withDepth _
    rcases entries (buffer.enter.skip space.length) prior [] rest least (deeper.skip inside) succeeds
      (show buffer.depth + 1 ≤ nestingLimit from shallow)
      (by show nestingLimit < buffer.depth + 1 + Item.nestingBelow items; omega) blank_nil left (by
        rw [left]
        simp only [List.length_cons, List.length_append, List.length_nil]
        omega) with ⟨after, refused⟩
    refine ⟨after, ?_⟩
    rw [parsed, refused]
    rfl
  · refine ⟨buffer, ?_⟩
    rw [parseValue_container kind start valid split, parseContainer_deep kind start (Nat.not_lt.mp shallow)]

theorem refuses_member {limit : Nat} {token key space gap text : Bytes} {item : Item}
    (accepted : StringToken token key) (blankSpace : Blank space) (blankGap : Blank gap)
    (derives : Derives library (.value (some key)) limit text [item])
    (value : Refuses library (.value (some key)) text [item]) :
    Refuses library (.entry .object) (token ++ (space ++ 0x3A :: (gap ++ text))) [item] := by
  intro buffer rest fuel valid succeeds within deep split ends enough
  rcases @parseEntry_member _ _ _ _ _ _ _ _ _ _ fuel valid succeeds accepted blankSpace blankGap derives split
    with ⟨parsed, inside, startLeft⟩
  have size := congrArg List.length split
  simp only [List.length_cons, List.length_append] at size
  rcases value (swapName (setString newItem key)) _ rest fuel (fresh_swapName key) (valid.skip inside) succeeds
    within deep startLeft ends (by rw [startLeft]; simp only [List.length_append]; omega) with ⟨after, refused⟩
  exact ⟨after, parsed.trans refused⟩

/-- An entry that is refused is the end of the loop.  No later entry is looked at. -/
theorem parseEntries_refused {kind : Container} {buffer : ParseBuffer} {prior : UInt8} {limit : Nat}
    {space text rest : Bytes} {item : Item} {fuel : Nat} (valid : buffer.Valid)
    (succeeds : buffer.hooks.AlwaysSucceed) (within : buffer.depth ≤ nestingLimit)
    (deep : nestingLimit < buffer.depth + item.nesting) (blank : Blank space)
    (bytes : buffer.remaining = prior :: (space ++ (text ++ rest)))
    (derives : Derives library (.entry kind) limit text [item])
    (entry : Refuses library (.entry kind) text [item]) (ends : EndsNumber rest)
    (enough : 3 * buffer.remaining.length + 1 ≤ fuel) :
    ∃ after, parseEntries library kind fuel buffer = .ok (none, after) := by
  rcases exists_fuel enough with ⟨less, rfl, covered⟩
  rcases @parseEntries_first _ _ _ _ _ _ _ _ _ less valid succeeds blank bytes derives with
    ⟨parsed, inside, startLeft⟩
  have size := congrArg List.length bytes
  simp only [List.length_cons, List.length_append] at size
  rw [← nestingBelow_singleton] at deep
  rcases entry _ rest less (valid.skip inside) succeeds within deep startLeft ends (by
    rw [startLeft]
    simp only [List.length_append]
    omega) with ⟨after, refused⟩
  refine ⟨after, ?_⟩
  rw [parsed, refused]
  rfl

theorem refuses_last {kind : Container} {limit : Nat} {text space : Bytes} {item : Item} (blank : Blank space)
    (derives : Derives library (.entry kind) limit text [item])
    (entry : Refuses library (.entry kind) text [item]) :
    Refuses library (.entries kind) (text ++ space) [item] := by
  intro buffer prior gap rest fuel valid succeeds within deep blankGap split enough
  rw [nestingBelow_singleton] at deep
  have bytes : buffer.remaining = prior :: (gap ++ (text ++ (space ++ kind.closing :: rest))) := by
    rw [split]
    simp
  exact parseEntries_refused valid succeeds within deep blankGap bytes derives entry
    (endsNumber_blank blank kind.closing_stops) enough

theorem refuses_more {kind : Container} {limit : Nat} {text space gap rest : Bytes} {item : Item}
    {items : List Item} (blankSpace : Blank space) (blankGap : Blank gap)
    (derives : Derives library (.entry kind) limit text [item])
    (entry : Refuses library (.entry kind) text [item])
    (entries : Refuses library (.entries kind) rest items) :
    Refuses library (.entries kind) (text ++ (space ++ 0x2C :: (gap ++ rest))) (item :: items) := by
  intro buffer prior before behind fuel valid succeeds within deep blankBefore split enough
  rw [Item.nestingBelow] at deep
  have bytes : buffer.remaining = prior :: (before ++ (text ++
      (space ++ 0x2C :: (gap ++ (rest ++ kind.closing :: behind))))) := by
    rw [split]
    simp
  have ends : EndsNumber (space ++ 0x2C :: (gap ++ (rest ++ kind.closing :: behind))) :=
    endsNumber_blank blankSpace (by decide)
  by_cases here : nestingLimit < buffer.depth + item.nesting
  · exact parseEntries_refused valid succeeds within here blankBefore bytes derives entry ends enough
  -- this entry is read, and the loop comes to the one that is too deep
  rcases exists_fuel enough with ⟨less, rfl, covered⟩
  have size := congrArg List.length bytes
  simp only [List.length_cons, List.length_append] at size
  have shallow : Derives library (.entry kind) item.nesting text [item] :=
    derives.within (nestingBelow_singleton item).le
  have after := valid.skip (show 1 + before.length + text.length ≤ buffer.remaining.length by omega)
  have afterLeft : (buffer.skip (1 + before.length + text.length)).remaining =
      space ++ 0x2C :: (gap ++ (rest ++ kind.closing :: behind)) := by
    rw [← skip_skip, ← skip_skip, remaining_skip, remaining_skip, remaining_skip, bytes,
      List.drop_succ_cons, List.drop_zero, List.drop_left, List.drop_left]
  rcases @continueEntries_comma library kind _ _ _ item less after blankSpace afterLeft with
    ⟨continues, inside, commaLeft⟩
  rcases entries _ 0x2C gap behind less (after.skip inside) succeeds within
    (by show nestingLimit < buffer.depth + Item.nestingBelow items; omega) blankGap commaLeft (by
      rw [commaLeft]
      simp only [List.length_append, List.length_cons]
      omega) with ⟨last, refused⟩
  refine ⟨last, ?_⟩
  rw [parseEntries_entry valid succeeds (Nat.not_lt.mp here) blankBefore bytes shallow
    (reads_of_derives shallow) ends enough, continues, refused]
  rfl

/-- The parser refuses every phrase that goes below the limit. -/
theorem refuses_of_derives {phrase : Phrase} {limit : Nat} {text : Bytes} {items : List Item}
    (derives : Derives library phrase limit text items) : Refuses library phrase text items := by
  induction derives with
  | null => exact refuses_leaf rfl
  | false => exact refuses_leaf rfl
  | true => exact refuses_leaf rfl
  | string _ => exact refuses_leaf rfl
  | number _ _ => exact refuses_leaf rfl
  | empty kind _ => exact refuses_empty kind _
  | filled kind blank derives entries => exact refuses_filled kind blank derives entries
  | element _ value =>
      intro buffer rest fuel valid succeeds within deep split ends enough
      exact value newItem buffer rest fuel fresh_newItem valid succeeds within deep split ends enough
  | member accepted blankSpace blankGap derives value =>
      exact refuses_member accepted blankSpace blankGap derives value
  | last blank derives entry => exact refuses_last blank derives entry
  | more blankSpace blankGap derives _ entry entries =>
      exact refuses_more blankSpace blankGap derives entry entries

/-! ## Documents -/

/-- A text that is one value, however deeply nested, and the tree it denotes.  It is
the grammar without the limit of the parser, which is the thing to be measured. -/
def WellFormedText (library : CLibrary) (text : Bytes) (item : Item) : Prop :=
  ∃ mark lead core tail limit, text = mark ++ (lead ++ (core ++ tail)) ∧
    (mark = [] ∨ mark = byteOrderMark) ∧ Blank lead ∧ Blank tail ∧
    Derives library (.value none) limit core [item]

/-- The documents of `cJSON_ParseWithOpts` are the texts that stay within the limit. -/
theorem document_iff_nesting {text : Bytes} {item : Item} :
    Document library text item ↔ WellFormedText library text item ∧ item.nesting ≤ nestingLimit := by
  constructor
  · rintro ⟨mark, lead, core, tail, split, marked, blankLead, blankTail, derives⟩
    have shallow := derives.nesting_le
    rw [nestingBelow_singleton] at shallow
    exact ⟨⟨mark, lead, core, tail, nestingLimit, split, marked, blankLead, blankTail, derives⟩, shallow⟩
  · rintro ⟨⟨mark, lead, core, tail, limit, split, marked, blankLead, blankTail, derives⟩, shallow⟩
    rw [← nestingBelow_singleton] at shallow
    exact ⟨mark, lead, core, tail, split, marked, blankLead, blankTail, derives.within shallow⟩

/-- `cJSON_Parse` is `parse_value` behind the mark and the whitespace. -/
theorem cjsonParse_eq {hooks : Hooks} (granted : (hooks.request nodeSize).1 = true) (value : Bytes) :
    cjsonParse library hooks value =
      parseValue library (parseFuel (text value ++ [0]).length) newItem
        ((contentBuffer hooks (text value ++ [0])).skip (leadLength (text value ++ [0]))) >>=
          fun result => .ok result.1 := by
  have entry := @cjsonParseWithLengthOpts_eq library hooks (text value ++ [0]) (by simp) granted false
  rw [cjsonParse, cjsonParseWithOpts, ← List.length_singleton (a := (0 : UInt8)), ← List.length_append, entry,
    bind_assoc]
  congr 1
  funext result
  rcases result with ⟨found, after⟩
  cases found with
  | none => rfl
  | some item => rfl

/-- The cursor at the value of a document: behind a byte order mark and the blanks.
The fuel that the parser starts with is enough for what is left. -/
theorem start_of_split {hooks : Hooks} {content mark lead core tail : Bytes} {limit : Nat} {item : Item}
    (split : content = mark ++ (lead ++ (core ++ tail))) (marked : mark = [] ∨ mark = byteOrderMark)
    (blankLead : Blank lead) (derives : Derives library (.value none) limit core [item]) :
    ((contentBuffer hooks (content ++ [0])).skip (leadLength (content ++ [0]))).remaining =
        core ++ (tail ++ [0]) ∧
      3 * (core ++ (tail ++ [0])).length + 3 ≤ parseFuel (content ++ [0]).length := by
  rcases derives_head derives with ⟨first, rest, rfl, large, _, _, ascii⟩
  have bytes : content ++ [0] = mark ++ (lead ++ (first :: (rest ++ (tail ++ [0])))) := by
    rw [split]
    simp
  have leadEq := @leadLength_marked _ _ (rest ++ (tail ++ [0])) _ marked blankLead large ascii (by simp)
  have size := congrArg List.length bytes
  simp only [List.length_append, List.length_cons, List.length_nil] at size
  constructor
  · rw [remaining_skip]
    show (content ++ [0]).drop _ = _
    rw [bytes, leadEq, ← List.drop_drop, List.drop_left, List.drop_left]
    rfl
  · rw [parseFuel]
    simp only [List.length_append, List.length_cons, List.length_nil]
    omega

section Documents

variable {hooks : Hooks} {value : Bytes} {item : Item}

/-- A text that is nested too deeply is refused, not read in part. -/
theorem cjsonParse_deep (succeeds : hooks.AlwaysSucceed) (wellFormed : WellFormedText library (text value) item)
    (deep : nestingLimit < item.nesting) : cjsonParse library hooks value = .ok none := by
  rcases wellFormed with ⟨mark, lead, core, tail, limit, split, marked, blankLead, blankTail, derives⟩
  rcases @start_of_split _ hooks _ _ _ _ _ _ _ split marked blankLead derives with ⟨startLeft, enough⟩
  rcases refuses_of_derives derives newItem _ _ (parseFuel (text value ++ [0]).length) fresh_newItem
    (start_valid hooks _) (Hooks.request_succeeds succeeds nodeSize) (Nat.zero_le _) (by
      rw [nestingBelow_singleton]
      show nestingLimit < 0 + item.nesting
      rwa [Nat.zero_add]) startLeft (endsNumber_blank blankTail (by decide)) (by rwa [startLeft])
    with ⟨after, refused⟩
  rw [cjsonParse_eq (succeeds 0 nodeSize), refused]
  rfl

/-- A text that stays within the limit is read. -/
theorem cjsonParse_shallow (succeeds : hooks.AlwaysSucceed) (wellFormed : WellFormedText library (text value) item)
    (shallow : item.nesting ≤ nestingLimit) : cjsonParse library hooks value = .ok (some item) := by
  rcases document_iff_nesting.mpr ⟨wellFormed, shallow⟩ with
    ⟨mark, lead, core, tail, split, marked, blankLead, blankTail, derives⟩
  rcases @start_of_split _ hooks _ _ _ _ _ _ _ split marked blankLead derives with ⟨startLeft, enough⟩
  rcases reads_of_derives derives newItem _ _ (parseFuel (text value ++ [0]).length) fresh_newItem
    (start_valid hooks _) (Hooks.request_succeeds succeeds nodeSize) (Nat.zero_add _).le startLeft
    (endsNumber_blank blankTail (by decide)) (by rwa [startLeft]) with ⟨found, same, read⟩
  cases same
  rw [cjsonParse_eq (succeeds 0 nodeSize), read]
  rfl

end Documents

/-! ## The counter -/

/-- The counter is back where it was when a value has been read. -/
theorem parseValue_depth (consumes : library.ConsumesAtMost) {fuel : Nat} {start item : Item}
    {name : Option Bytes} {buffer after : ParseBuffer} (fresh : Fresh start name) (valid : buffer.Valid)
    (parsed : parseValue library fuel start buffer = .ok (some item, after)) : after.depth = buffer.depth := by
  rcases (sound consumes fuel).value start name buffer fresh valid item after parsed with ⟨_, _, _, moved, _⟩
  exact moved.depth_eq

/-! ## Printing -/

mutual

/-- A node of a type that `print_value` knows, with a value that it can write,
and its children with it. -/
def printable (library : CLibrary) : Item -> Bool
  | .mk fields child _ =>
      match fields.type_.base with
      | .invalid => false
      | .raw => fields.valuestring.isSome
      | .number => (numberBuffer library fields).any (fun printed => decide (printed.length ≤ 25))
      | .array => printableBelow library child
      | .object => printableBelow library child
      | _ => true

def printableBelow (library : CLibrary) : List Item -> Bool
  | [] => true
  | item :: rest => printable library item && printableBelow library rest

end

/-- `snprintf` writes no number longer than the buffer of `format_number_g`.
Seventeen digits with sign, point and exponent take 24 bytes at most. -/
def CLibrary.FormatsShort (library : CLibrary) : Prop :=
  ∀ precision number, precision ≤ 17 -> (library.formatG precision number).length < 26

section Printing

variable {format : Bool}

/-- A printable node has a rendering exactly where its containers fit below it. -/
def RendersWithin (library : CLibrary) (format : Bool) (item : Item) : Prop :=
  ∀ depth, depth ≤ nestingLimit -> printable library item = true ->
    ((rendering library format depth item).isSome = true ↔ depth + item.nesting ≤ nestingLimit)

theorem renderElements_isSome_iff {items : List Item} (values : ∀ item ∈ items, RendersWithin library format item)
    {depth : Nat} (within : depth ≤ nestingLimit) (printables : printableBelow library items = true) :
    (renderElements library format depth items).isSome = true ↔
      depth + Item.nestingBelow items ≤ nestingLimit := by
  induction items with
  | nil => exact iff_of_true rfl within
  | cons item rest hypothesis =>
      rw [printableBelow, Bool.and_eq_true] at printables
      have first := values item List.mem_cons_self depth within printables.1
      have others := hypothesis (fun other inside => values other (List.mem_cons_of_mem _ inside)) printables.2
      rw [renderElements, Item.nestingBelow, ← Nat.add_max_add_left, max_le_iff, ← first, ← others]
      cases rendering library format depth item with
      | none => simp
      | some value => cases renderElements library format depth rest <;> simp

theorem renderMembers_isSome_iff {items : List Item} (values : ∀ item ∈ items, RendersWithin library format item)
    {depth : Nat} (within : depth ≤ nestingLimit) (printables : printableBelow library items = true) :
    (renderMembers library format depth items).isSome = true ↔
      depth + Item.nestingBelow items ≤ nestingLimit := by
  induction items with
  | nil => exact iff_of_true rfl within
  | cons item rest hypothesis =>
      rw [printableBelow, Bool.and_eq_true] at printables
      have first := values item List.mem_cons_self depth within printables.1
      have others := hypothesis (fun other inside => values other (List.mem_cons_of_mem _ inside)) printables.2
      rw [renderMembers, Item.nestingBelow, ← Nat.add_max_add_left, max_le_iff, ← first, ← others]
      cases rendering library format depth item with
      | none => simp
      | some value => cases renderMembers library format depth rest <;> simp

theorem rendersWithin (item : Item) : RendersWithin library format item := by
  induction item using Item.induct with
  | node fields child headPrev values =>
      intro depth within printables
      unfold printable at printables
      unfold Item.nesting rendering
      cases base : fields.type_.base with
      | array =>
          simp only [base] at printables ⊢
          by_cases deep : nestingLimit ≤ depth
          · rw [if_pos deep]
            exact iff_of_false (by simp) (by omega)
          · rw [if_neg deep, Option.isSome_map,
              renderElements_isSome_iff values (Nat.succ_le_of_lt (Nat.not_le.mp deep)) printables]
            omega
      | object =>
          simp only [base] at printables ⊢
          by_cases deep : nestingLimit ≤ depth
          · rw [if_pos deep]
            exact iff_of_false (by simp) (by omega)
          · rw [if_neg deep, Option.isSome_map,
              renderMembers_isSome_iff values (Nat.succ_le_of_lt (Nat.not_le.mp deep)) printables]
            omega
      | number =>
          simp only [base] at printables ⊢
          cases found : numberBuffer library fields with
          | none =>
              rw [found] at printables
              cases printables
          | some printed =>
              rw [found, Option.any_some, decide_eq_true_eq] at printables
              dsimp only
              rw [if_neg (Nat.not_lt.mpr printables)]
              exact iff_of_true rfl within
      | raw =>
          simp only [base] at printables ⊢
          rw [Option.isSome_map]
          exact iff_of_true printables within
      | invalid =>
          simp only [base] at printables
          cases printables
      | null => exact iff_of_true rfl within
      | false => exact iff_of_true rfl within
      | true => exact iff_of_true rfl within
      | string => exact iff_of_true rfl within

/-- A printable tree is printed, where memory is granted and the text fits,
exactly if it is not nested too deeply. -/
theorem printImpl_isSome_iff {item : Item} (printables : printable library item = true) {allocator : Allocator}
    (succeeds : allocator.hooks.AlwaysSucceed)
    (fits : ∀ text, rendering library format 0 item = some text -> FitsIntMax text) :
    Returns (printImpl library item format allocator) fun result =>
      (result.1.isSome = true ↔ item.nesting ≤ nestingLimit) := by
  have renders := @rendersWithin library format item 0 (Nat.zero_le _) printables
  rw [Nat.zero_add] at renders
  apply (printImpl_returns library item format allocator).mono
  rintro result ⟨holds, granted⟩
  rw [← renders]
  constructor
  · intro printed
    rcases Option.isSome_iff_exists.mp printed with ⟨block, found⟩
    rcases holds block found with ⟨text, rendered, _⟩
    rw [rendered]
    rfl
  · intro rendered
    rcases Option.isSome_iff_exists.mp rendered with ⟨text, found⟩
    exact granted succeeds text found (fits text found)

end Printing

/-! ## Trees of the parser -/

section Parsed

variable (short : library.FormatsShort)

include short

/-- The number of a parsed node fits into the printer's buffer. -/
theorem numberBuffer_short (fields : Fields) (integer : FitsInt32 fields.valueint) :
    (numberBuffer library fields).any (fun printed => decide (printed.length ≤ 25)) = true := by
  have formats : ∀ precision, precision ≤ 17 ->
      formatNumberG library fields.valuedouble precision =
        some (library.formatG precision fields.valuedouble) := by
    intro precision digits
    exact if_neg (Nat.not_le.mpr (short precision _ digits))
  have bound := fun precision number digits => Nat.le_of_lt_succ (short precision number digits)
  unfold numberBuffer
  rw [formats 15 (by decide), formats 17 (le_refl _)]
  cases fields.valuedouble with
  | nan => rfl
  | infinite negative => rfl
  | finite value =>
      dsimp only
      split
      · exact decide_eq_true (Nat.not_lt.mp (decimalText_fits integer))
      · split
        · exact decide_eq_true (bound 15 _ (by decide))
        · exact decide_eq_true (bound 17 _ (le_refl _))

theorem printable_setNumber (item : Item) (number : Binary64) :
    printable library (setNumber item number) = true := by
  have bounds := Binary64.toInt_bounds (show (-2 ^ 31 : Int) ≤ 0 by decide)
    (show (0 : Int) ≤ 2 ^ 31 - 1 by decide) number
  have integer : FitsInt32 (saturate number) := by
    unfold saturate
    split
    · decide
    · split
      · decide
      · exact ⟨bounds.1, by omega⟩
  cases item with
  | mk fields child headPrev => exact numberBuffer_short short _ integer

/-- What a phrase denotes can be printed. -/
theorem printableBelow_of_derives {phrase : Phrase} {limit : Nat} {text : Bytes} {items : List Item}
    (derives : Derives library phrase limit text items) : printableBelow library items = true := by
  induction derives with
  | null => rfl
  | false => rfl
  | true => rfl
  | string _ => rfl
  | number _ _ => exact (Bool.and_true _).trans (printable_setNumber short _ _)
  | empty kind _ => cases kind <;> rfl
  | filled kind _ _ below => cases kind <;> exact (Bool.and_true _).trans below
  | element _ below => exact below
  | member _ _ _ _ below => exact below
  | last _ _ below => exact below
  | more _ _ _ _ first others =>
      rw [printableBelow, printableBelow, Bool.and_true] at first
      rw [printableBelow, first, others]
      rfl

theorem printable_of_valueAt {core rest : Bytes} {item : Item} (valueAt : ValueAt library rest core item) :
    printable library item = true ∧ item.nesting ≤ nestingLimit := by
  cases valueAt with
  | number _ _ => exact ⟨printable_setNumber short _ _, Nat.zero_le _⟩
  | other _ derives =>
      have shallow := derives.nesting_le
      have below := printableBelow_of_derives short derives
      rw [nestingBelow_singleton] at shallow
      rw [printableBelow, printableBelow, Bool.and_true] at below
      exact ⟨below, shallow⟩

/-- What `cJSON_Parse` returns can be printed. -/
theorem cjsonParse_printable (consumes : library.ConsumesAtMost) {hooks : Hooks} {value : Bytes} {item : Item}
    (parsed : cjsonParse library hooks value = .ok (some item)) :
    printable library item = true ∧ item.nesting ≤ nestingLimit := by
  rcases Except.bind_eq_ok.mp parsed with ⟨outcome, ran, same⟩
  have accepts : outcome.item = some item := Except.ok.inj same
  have content : cjsonParseWithLengthOpts library hooks (text value ++ [0]) (text value ++ [0]).length false =
      .ok outcome := by
    rw [List.length_append]
    exact ran
  have granted := granted_of_parse (by simp) content accepts
  rw [cjsonParse_eq granted] at parsed
  rcases Except.bind_eq_ok.mp parsed with ⟨⟨found, after⟩, read, same⟩
  cases Except.ok.inj same
  rcases parseValue_valueAt consumes (start_valid hooks _) rfl read with ⟨core, rest, _, _, valueAt⟩
  exact printable_of_valueAt short valueAt

end Parsed

/-! ## The limit -/

/-- `cJSON_Parse` accepts a well-formed text exactly if its containers are nested
within the limit, the counter is the same before and after every value, and
`cJSON_Print` prints a printable tree exactly if it is nested within the limit;
so what was parsed can be printed. -/
theorem nesting_limit_exact (library : CLibrary) (consumes : library.ConsumesAtMost)
    (short : library.FormatsShort) :
    (∀ (hooks : Hooks) (value : Bytes) (item : Item), hooks.AlwaysSucceed ->
      WellFormedText library (text value) item ->
        cjsonParse library hooks value = .ok (if item.nesting ≤ nestingLimit then some item else none)) ∧
    (∀ (fuel : Nat) (start item : Item) (name : Option Bytes) (buffer after : ParseBuffer), Fresh start name ->
      buffer.Valid -> parseValue library fuel start buffer = .ok (some item, after) ->
        after.depth = buffer.depth) ∧
    (∀ (item : Item) (allocator : Allocator), printable library item = true ->
      allocator.hooks.AlwaysSucceed ->
      (∀ text, rendering library true 0 item = some text -> FitsIntMax text) ->
        Returns (cjsonPrint library item allocator) fun result =>
          (result.1.isSome = true ↔ item.nesting ≤ nestingLimit)) ∧
    (∀ (hooks : Hooks) (value : Bytes) (item : Item) (allocator : Allocator),
      cjsonParse library hooks value = .ok (some item) -> allocator.hooks.AlwaysSucceed ->
      (∀ text, rendering library true 0 item = some text -> FitsIntMax text) ->
        Returns (cjsonPrint library item allocator) fun result => result.1.isSome = true) := by
  refine ⟨?_, ?_, ?_, ?_⟩
  · intro hooks value item succeeds wellFormed
    by_cases shallow : item.nesting ≤ nestingLimit
    · rw [if_pos shallow]
      exact cjsonParse_shallow succeeds wellFormed shallow
    · rw [if_neg shallow]
      exact cjsonParse_deep succeeds wellFormed (Nat.not_le.mp shallow)
  · intro fuel start item name buffer after fresh valid parsed
    exact parseValue_depth consumes fresh valid parsed
  · intro item allocator printables succeeds fits
    exact printImpl_isSome_iff printables succeeds fits
  · intro hooks value item allocator parsed succeeds fits
    rcases cjsonParse_printable short consumes parsed with ⟨printables, shallow⟩
    apply (printImpl_isSome_iff printables succeeds fits).mono
    intro result printed
    exact printed.mpr shallow

theorem decimalLibrary_formatsShort : decimalLibrary.FormatsShort := by
  intro precision number _
  have bounds := Binary64.toInt_bounds (show (-2 ^ 53 : Int) ≤ 0 by decide)
    (show (0 : Int) ≤ 2 ^ 53 by decide) number
  have length := @decimalText_length_le (number.toInt (-2 ^ 53) (2 ^ 53)) 16 (by decide) (by omega)
  show (decimalText _).length < 26
  omega

/-- `[[],[[]]]` is read whole. -/
theorem nesting_limit_exact_siblings :
    let value : Bytes := [0x5B, 0x5B, 0x5D, 0x2C, 0x5B, 0x5B, 0x5D, 0x5D, 0x5D]
    let leaf := finishContainer newItem .array []
    cjsonParse decimalLibrary grantAll value =
      .ok (some (finishContainer newItem .array [leaf, finishContainer newItem .array [leaf]])) := by
  intro value leaf
  have limits := nesting_limit_exact decimalLibrary decimalLibrary_consumesAtMost decimalLibrary_formatsShort
  have inner : Derives decimalLibrary (.value none) 1 [0x5B, 0x5D] [leaf] := .empty .array blank_nil
  have deeper : Derives decimalLibrary (.value none) 2 [0x5B, 0x5B, 0x5D, 0x5D]
      [finishContainer newItem .array [leaf]] :=
    .filled .array blank_nil (.last blank_nil (.element inner))
  have wellFormed : WellFormedText decimalLibrary (text value)
      (finishContainer newItem .array [leaf, finishContainer newItem .array [leaf]]) :=
    ⟨[], [], value, [], 3, rfl, Or.inl rfl, blank_nil, blank_nil,
      .filled .array blank_nil (.more blank_nil blank_nil (.element (inner.within (by decide)))
        (.last blank_nil (.element deeper)))⟩
  exact limits.1 grantAll value _ grantAll_alwaysSucceed wellFormed

end CJson
