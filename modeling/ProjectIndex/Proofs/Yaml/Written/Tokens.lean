import ProjectIndex.Proofs.Yaml.Written.Scalar

/-!
# The tokens of a written record

A record is written line by line, and the lexer reads it field by field: `tokens_record`.  A field takes
three tokens, its name, its colon and its text; the colon makes the name a key, and the first colon opens
the mapping.  Between two fields the lexer stands at a line of the mapping, and `Lexer.run_field` leads it
from one to the next.
-/

namespace ProjectIndex.Yaml

open Written

variable {s t w rest spelling : List Char} {style : ScalarStyle} {m : Mark}

/-- The characters that the way to the next token can lead over. -/
def isSkipped (c : Char) : Bool := isSpaceOrTab c || isBreak c || c == '#' || c == Char.ofNat 0xFEFF

/-- No written text begins with a character that is skipped. -/
theorem Scalar.begins (scalar : Scalar spelling s style) (rest : List Char) :
    Stops isSkipped (spelling ++ rest) := by
  cases scalar with
  | plain fits nonempty =>
      have line := isLine_of_fitsPlain fits nonempty
      have visible := isVisible_of_fitsPlain fits
      obtain ⟨c, s, rfl⟩ := List.exists_cons_of_ne_nil nonempty
      have word := stops_cons.mp (line.stops [])
      have sign : (c == '#') = false := beq_eq_false_iff_ne.mpr fun same => line.no_sign (congrArg some same)
      have mark : (c == Char.ofNat 0xFEFF) = false := by
        rw [beq_eq_false_iff_ne]
        rintro rfl
        exact absurd (visible _ List.mem_cons_self) (by decide)
      refine stops_cons.mpr ?_
      rw [isSkipped, sign, mark]
      simpa [endsWord] using word
  | single => exact stops_cons.mpr rfl
  | double => exact stops_cons.mpr rfl
  | literal => exact stops_cons.mpr rfl

theorem isSkipped_of_isNameChar {c : Char} (letter : isNameChar c = true) : isSkipped c = false := by
  have other : ∀ d, isNameChar d = false → (c == d) = false := fun d => beq_eq_false_of_class letter
  rw [isSkipped, isSpaceOrTab, isBreak]
  simp only [other ' ' rfl, other '\t' rfl, other '\n' rfl, other '\r' rfl, other (Char.ofNat 0x85) rfl,
    other (Char.ofNat 0x2028) rfl, other (Char.ofNat 0x2029) rfl, other '#' rfl,
    other (Char.ofNat 0xFEFF) rfl, Bool.or_self]

/-- The tokens of a field. -/
def fieldKinds (f : List Char × List Char × ScalarStyle) : List TokenKind :=
  [.key, .scalar f.1 .plain, .value, .scalar f.2.1 f.2.2]

namespace Lexer

variable {l l' l'' : Lexer} {read : List Token} {kinds : List TokenKind} {indent : Int} {outer : List Int}
  {keyAllowed : Bool} {key : Option KeyCandidate} {fuel : Nat}

/-! ### The way to a token -/

/-- Spaces lead to the token behind them. -/
theorem skipToToken_spaces (spaces : List Char) (all : ∀ c ∈ spaces, c = ' ') (begins : Stops isSkipped t) :
    (between ⟨spaces ++ t, m, none⟩ read indent outer keyAllowed key).skipToToken (fuel + 1) =
      .ok (between ⟨t, m.over spaces.length, none⟩ read indent outer keyAllowed key) := by
  have unlike : ∀ d, isSkipped d = true → t.head? ≠ some d := fun d skipped head =>
    nomatch (begins d head).symm.trans skipped
  have unmarked : ¬ ((between ⟨spaces ++ t, m, none⟩ read indent outer keyAllowed key).mark.column = 0 ∧
      (between ⟨spaces ++ t, m, none⟩ read indent outer keyAllowed key).input.sees (Char.ofNat 0xFEFF) = true) := by
    rintro ⟨-, sees⟩
    cases spaces with
    | nil => exact unlike _ (by decide) (beq_iff_eq.mp sees)
    | cons c spaces =>
        obtain rfl := all c List.mem_cons_self
        exact nomatch sees
  have spanned : ((Input.mk (spaces ++ t) m none).span fun c => c == ' ' || (!keyAllowed && c == '\t')) =
      (spaces, ⟨t, m.over spaces.length, none⟩) := by
    refine span_append (fun c hc => by rw [all c hc]; rfl) fun c head => ?_
    have space : (c == ' ') = false := beq_eq_false_iff_ne.mpr fun same => unlike ' ' (by decide) (same ▸ head)
    have tab : (c == '\t') = false := beq_eq_false_iff_ne.mpr fun same => unlike '\t' (by decide) (same ▸ head)
    rw [space, tab, Bool.and_false]
    rfl
  have noComment : (Input.mk t (m.over spaces.length) none).skipComment = ⟨t, m.over spaces.length, none⟩ :=
    if_neg fun sees => unlike '#' (by decide) (beq_iff_eq.mp sees)
  have noBreak : (Input.mk t (m.over spaces.length) none).peek.any isBreak = false := by
    rw [Input.peek]
    cases head : t.head? with
    | none => rfl
    | some c =>
        have none := begins c head
        simp only [isSkipped, Bool.or_eq_false_iff] at none
        exact none.1.1.2
  rw [skipToToken, if_neg unmarked]
  simp only [input_between, inFlow_between, keyAllowed_between, Bool.false_or, spanned, noComment, noBreak, bind,
    Except.bind, Input.ensure, Bool.false_eq_true, if_false]
  rfl

/-- A line feed leads to the next line, where a key may begin. -/
theorem skipToToken_feed :
    (between ⟨'\n' :: t, m, none⟩ read indent outer keyAllowed key).skipToToken (fuel + 1) =
      (between ⟨t, m.nextLine 1, none⟩ read indent outer true key).skipToToken fuel := by
  have unmarked : ¬ ((between ⟨'\n' :: t, m, none⟩ read indent outer keyAllowed key).mark.column = 0 ∧
      (between ⟨'\n' :: t, m, none⟩ read indent outer keyAllowed key).input.sees (Char.ofNat 0xFEFF) = true) :=
    fun marked => nomatch marked.2
  rw [skipToToken, if_neg unmarked]
  cases keyAllowed <;> rfl

/-- From where a line is at hand, the way to the next token leads to its start. -/
theorem AtLine.skipToToken (h : AtLine rest kinds indent outer key l) (begins : Stops isSkipped rest) :
    ∃ m read, m.column = 0 ∧ read.map (·.kind) = kinds ∧
      l.skipToToken (l.input.rest.length + 1) =
        .ok (between ⟨rest, m, none⟩ read indent outer true key) := by
  cases h with
  | @here m read start same =>
      refine ⟨m, read, start, same, ?_⟩
      exact skipToToken_spaces (m := m) [] nofun begins
  | @before m read keyAllowed same =>
      refine ⟨m.nextLine 1, read, rfl, same, ?_⟩
      rw [input_between, List.length_cons, skipToToken_feed]
      exact skipToToken_spaces (m := m.nextLine 1) [] nofun begins

/-! ### One token -/

/-- Nothing is closed by a token that is not further to the left. -/
theorem closeBlocks_between (i : Input) {column : Int} (inside : indent ≤ column) :
    (between i read indent outer keyAllowed key).closeBlocks column =
      between i read indent outer keyAllowed key := by
  have none : furtherIn column indent outer = (0, indent, outer) := by
    cases outer with
    | nil => rfl
    | cons o outer => rw [furtherIn, if_neg (by omega)]
  rw [closeBlocks, inFlow_between, if_neg Bool.false_ne_true]
  simp only [between, none]
  rfl

theorem dropStaleKeys_between {i : Input} (fresh : ∀ k, key = some k → k.isStale i.mark = false) :
    (between i read indent outer keyAllowed key).dropStaleKeys =
      .ok (between i read indent outer keyAllowed key) := by
  cases key with
  | none => rfl
  | some k =>
      have kept : dropStale i.mark [some k] = .ok [some k] := by
        simp only [dropStale, bind, Except.bind, fresh k rfl, Bool.not_false, if_true]
      have keys : dropStale (between i read indent outer keyAllowed (some k)).mark
          (between i read indent outer keyAllowed (some k)).keys = .ok [some k] := kept
      rw [dropStaleKeys, keys]
      rfl

/-- A token is read where the way to it leads, unless a key candidate is out of reach there. -/
theorem fetch_between {i : Input} (fault : l.input.fault = none) (fault' : i.fault = none)
    (some : l.count ≠ 0) (skip : l.skipToToken (l.input.rest.length + 1) =
      .ok (between i read indent outer keyAllowed key))
    (fresh : ∀ k, key = .some k → k.isStale i.mark = false) (inside : indent ≤ i.mark.column) :
    l.fetch = (between i read indent outer keyAllowed key).fetchHere := by
  have kept : (between i read indent outer keyAllowed key).dropStaleKeys = _ := dropStaleKeys_between fresh
  have met : ∀ {i : Input}, i.fault = none → ∀ n, i.ensure n = .ok () := fun {i} fault n => by
    rw [Input.ensure, fault]
  rw [fetch, if_neg some]
  simp only [met fault, skip, kept, bind, Except.bind, mark_between, closeBlocks_between _ inside,
    input_between, met fault']

theorem run_succ (ahead : l.ended = false) (fetch : l.fetch = .ok l') (kept : l'.dropStaleKeys = .ok l'')
    (n : Nat) : l.run (n + 1) = l''.run n := by
  rw [run, ahead, if_neg Bool.false_ne_true, fetch]
  simp only [bind, Except.bind, kept]

/-! ### The tokens of a field -/

/-- A letter begins a plain scalar, wherever it stands. -/
theorem fetchHere_letter {c : Char} (letter : isNameChar c = true) :
    (between ⟨c :: t, m, none⟩ read indent outer keyAllowed key).fetchHere =
      (between ⟨c :: t, m, none⟩ read indent outer keyAllowed key).fetchPlain := by
  have other : ∀ d, isNameChar d = false → (c == d) = false := fun d => beq_eq_false_of_class letter
  have edge : ∀ d, isNameChar d = false → (Input.mk (c :: t) m none).atIndicator d = false := by
    intro d bad
    have unlike : (some c == some d) = false := other d bad
    simp [Input.atIndicator, Input.peek, unlike]
  have peek : (Input.mk (c :: t) m none).peek = some c := rfl
  have word : endsWord (some c) = false := by
    have inside := endsPlainWord_of_isNameChar letter t
    simp only [endsPlainWord, Bool.or_eq_false_iff] at inside
    exact inside.1.1.1
  have noIndicator : isIndicator c = false := contains_eq_false_of_class letter (by decide)
  have plain : (between ⟨c :: t, m, none⟩ read indent outer keyAllowed key).startsPlain = true := by
    rw [startsPlain, input_between, peek]
    simp only [word, noIndicator, Bool.not_false, Bool.true_and, Bool.true_or]
  rw [fetchHere]
  simp only [input_between, inFlow_between, peek, edge '-' rfl, edge '.' rfl, other '%' rfl, other '[' rfl,
    other ']' rfl, other '{' rfl, other '}' rfl, other ',' rfl, other '-' rfl, other '?' rfl, other ':' rfl,
    other '*' rfl, other '&' rfl, other '!' rfl, other '|' rfl, other '>' rfl, other '\x27' rfl,
    other '"' rfl, Bool.false_and, Bool.false_eq_true, if_false]
  exact if_pos plain

/-- **The name of a field is a plain scalar**, and may become a key. -/
theorem fetchHere_name (letters : ∀ c ∈ w, isNameChar c = true) (nonempty : w ≠ []) :
    (between ⟨w ++ ':' :: ' ' :: t, m, none⟩ read indent outer true none).fetchHere =
      .ok (between ⟨':' :: ' ' :: t, m.over w.length, none⟩
        (⟨.scalar w .plain, m, m.over w.length⟩ :: read) indent outer false
        (some ⟨indent == m.column, read.length, m⟩)) := by
  have plain : readPlain false (indent + 1).toNat ⟨w ++ ':' :: ' ' :: t, m, none⟩ = _ :=
    readPlain_name letters nonempty
  obtain ⟨c, w, rfl⟩ := List.exists_cons_of_ne_nil nonempty
  have marked : (between ⟨c :: w ++ ':' :: ' ' :: t, m, none⟩ read indent outer true none).markKey =
      .ok (between ⟨c :: w ++ ':' :: ' ' :: t, m, none⟩ read indent outer true
        (some ⟨indent == m.column, read.length, m⟩)) := rfl
  rw [List.cons_append, fetchHere_letter (letters c List.mem_cons_self), ← List.cons_append, fetchPlain, marked]
  have here : readPlain (between ⟨c :: w ++ ':' :: ' ' :: t, m, none⟩ read indent outer true
        (some ⟨indent == m.column, read.length, m⟩)).inFlow
      ((between ⟨c :: w ++ ':' :: ' ' :: t, m, none⟩ read indent outer true
        (some ⟨indent == m.column, read.length, m⟩)).indent + 1).toNat
      (between ⟨c :: w ++ ':' :: ' ' :: t, m, none⟩ read indent outer true
        (some ⟨indent == m.column, read.length, m⟩)).input = _ := plain
  simp only [bind, Except.bind, here]
  rfl

/-- A token is put in front of those that were read behind a place. -/
theorem insert_between (i : Input) (front read : List Token) (kind : TokenKind) (m : Mark) :
    (between i (front ++ read) indent outer keyAllowed key).insert read.length kind m =
      between i (front ++ ⟨kind, m, m⟩ :: read) indent outer keyAllowed key := by
  simp only [between, insert, List.length_append, Nat.add_sub_cancel, List.take_left, List.drop_left,
    List.length_cons, Nat.add_assoc]

/-- A block that is further in is opened in front of them too. -/
theorem openBlock_between (i : Input) (front read : List Token) (kind : TokenKind) (m : Mark) {column : Nat}
    (further : indent < column) :
    (between i (front ++ read) indent outer keyAllowed key).openBlock column read.length kind m =
      between i (front ++ ⟨kind, m, m⟩ :: read) column (indent :: outer) keyAllowed key := by
  have opens : (!(between i (front ++ read) indent outer keyAllowed key).inFlow &&
      decide ((between i (front ++ read) indent outer keyAllowed key).indent < column)) = true := by
    rw [inFlow_between, Bool.not_false, Bool.true_and]
    exact decide_eq_true further
  rw [openBlock, if_pos opens, insert_between]
  rfl

theorem openBlock_of_le (i : Input) (position : Nat) (kind : TokenKind) (m : Mark) {column : Nat}
    (le : column ≤ indent) :
    (between i read indent outer keyAllowed key).openBlock column position kind m =
      between i read indent outer keyAllowed key := by
  have stays : ¬ (!(between i read indent outer keyAllowed key).inFlow &&
      decide ((between i read indent outer keyAllowed key).indent < column)) = true := by
    rw [inFlow_between, Bool.not_false, Bool.true_and, decide_eq_true_eq]
    exact Int.not_lt.mpr le
  rw [openBlock, if_neg stays]

theorem fetchHere_colon :
    (between ⟨':' :: ' ' :: t, m, none⟩ read indent outer keyAllowed key).fetchHere =
      (between ⟨':' :: ' ' :: t, m, none⟩ read indent outer keyAllowed key).fetchValue := by
  have edge : ∀ d, (some ':' == some d) = false → (Input.mk (':' :: ' ' :: t) m none).atIndicator d = false := by
    intro d unlike
    simp [Input.atIndicator, Input.peek, unlike]
  rw [fetchHere]
  simp only [input_between, edge '-' rfl, edge '.' rfl]
  rfl

/-- A colon behind a key candidate. -/
theorem fetchValue_of {k : KeyCandidate} {ks : List (Option KeyCandidate)} (candidate : l.keys = some k :: ks)
    (opened : (l.insert k.position .key k.mark).openBlock k.mark.column k.position .blockMappingStart k.mark =
      l') : l.fetchValue = .ok ({ l' with keys := none :: ks, keyAllowed := false }.pushOver 1 .value) := by
  rw [fetchValue, candidate]
  simp only [opened]

variable {name : Token} {k : Mark} {isRequired : Bool}

/-- A key at the left edge opens a mapping in front of it. -/
theorem insertKey_first (i : Input) (start : k.column = 0) :
    ((between i (name :: read) (-1) [] keyAllowed key).insert read.length .key k).openBlock k.column read.length
      .blockMappingStart k =
      between i (name :: ⟨.key, k, k⟩ :: ⟨.blockMappingStart, k, k⟩ :: read) 0 [-1] keyAllowed key := by
  have inserted : (between i (name :: read) (-1) [] keyAllowed key).insert read.length .key k =
      between i (name :: ⟨.key, k, k⟩ :: read) (-1) [] keyAllowed key := insert_between i [name] read .key k
  rw [inserted, start]
  exact openBlock_between i [name, ⟨.key, k, k⟩] read .blockMappingStart k (by decide)

/-- A key of the mapping that is open opens none. -/
theorem insertKey_later (i : Input) (start : k.column = 0) :
    ((between i (name :: read) 0 outer keyAllowed key).insert read.length .key k).openBlock k.column read.length
      .blockMappingStart k =
      between i (name :: ⟨.key, k, k⟩ :: read) 0 outer keyAllowed key := by
  have inserted : (between i (name :: read) 0 outer keyAllowed key).insert read.length .key k =
      between i (name :: ⟨.key, k, k⟩ :: read) 0 outer keyAllowed key := insert_between i [name] read .key k
  rw [inserted, start]
  exact openBlock_of_le i read.length .blockMappingStart k (by decide)

/-- **The first colon** opens the mapping and makes the name before it a key. -/
theorem fetchHere_firstColon (start : k.column = 0) :
    (between ⟨':' :: ' ' :: t, m, none⟩ (name :: read) (-1) [] false
      (some ⟨isRequired, read.length, k⟩)).fetchHere =
      .ok (between ⟨' ' :: t, m.over 1, none⟩
        (⟨.value, m, m.over 1⟩ :: name :: ⟨.key, k, k⟩ :: ⟨.blockMappingStart, k, k⟩ :: read) 0 [-1] false
        none) := by
  rw [fetchHere_colon, fetchValue_of rfl (insertKey_first _ start)]
  rfl

/-- A later colon makes the name before it a key. -/
theorem fetchHere_laterColon (start : k.column = 0) :
    (between ⟨':' :: ' ' :: t, m, none⟩ (name :: read) 0 outer false
      (some ⟨isRequired, read.length, k⟩)).fetchHere =
      .ok (between ⟨' ' :: t, m.over 1, none⟩
        (⟨.value, m, m.over 1⟩ :: name :: ⟨.key, k, k⟩ :: read) 0 outer false none) := by
  rw [fetchHere_colon, fetchValue_of rfl (insertKey_later _ start)]
  rfl

/-! ### The fields -/

/-- The lexer at a line goes on, from an input without a fault and with some tokens. -/
theorem AtLine.goesOn (h : AtLine rest kinds indent outer key l) (opened : kinds ≠ []) :
    l.ended = false ∧ l.input.fault = none ∧ l.count ≠ 0 := by
  have some : ∀ {read : List Token}, read.map (·.kind) = kinds → read.length ≠ 0 := by
    rintro read rfl none
    exact opened (by rw [List.length_eq_zero_iff.mp none]; rfl)
  cases h with
  | here start same => exact ⟨rfl, rfl, some same⟩
  | before same => exact ⟨rfl, rfl, some same⟩

/-- A candidate is in reach for a while. -/
theorem isStale_over {isRequired : Bool} {position n : Nat} (short : n ≤ keyReach) :
    (KeyCandidate.mk isRequired position m).isStale (m.over n) = false :=
  Bool.or_eq_false_iff.mpr ⟨decide_eq_false (Nat.lt_irrefl _),
    decide_eq_false (Nat.not_lt.mpr (Nat.add_le_add_left short m.index))⟩

/-- The name of a field is read from its line. -/
theorem run_name (atLine : AtLine (w ++ ':' :: ' ' :: t) kinds indent outer none l) (opened : kinds ≠ [])
    (le : indent ≤ 0) (letters : ∀ c ∈ w, isNameChar c = true) (nonempty : w ≠ [])
    (short : w.length ≤ keyReach) :
    ∃ m read, m.column = 0 ∧ read.map (·.kind) = kinds ∧ ∀ n, l.run (n + 1) =
      (between ⟨':' :: ' ' :: t, m.over w.length, none⟩ (⟨.scalar w .plain, m, m.over w.length⟩ :: read)
        indent outer false (some ⟨indent == m.column, read.length, m⟩)).run n := by
  obtain ⟨ahead, fault, count⟩ := atLine.goesOn opened
  have begins : Stops isSkipped (w ++ ':' :: ' ' :: t) := by
    obtain ⟨c, w, rfl⟩ := List.exists_cons_of_ne_nil nonempty
    exact stops_cons.mpr (isSkipped_of_isNameChar (letters c List.mem_cons_self))
  obtain ⟨m, read, start, same, skip⟩ := atLine.skipToToken begins
  have fetch := fetch_between fault rfl count skip nofun (by rw [start]; exact le)
  rw [fetchHere_name letters nonempty] at fetch
  refine ⟨m, read, start, same, run_succ ahead fetch (dropStaleKeys_between ?_)⟩
  rintro k ⟨⟩
  exact isStale_over short

/-- A token that begins right here, or behind spaces, is read. -/
theorem run_between (spaces : List Char) (some : read ≠ [])
    (all : ∀ c ∈ spaces, c = ' ') (begins : Stops isSkipped t)
    (fresh : ∀ k, key = .some k → k.isStale (m.over spaces.length) = false)
    (inside : indent ≤ (m.over spaces.length).column)
    (here : (between ⟨t, m.over spaces.length, none⟩ read indent outer keyAllowed key).fetchHere = .ok l)
    (kept : l.dropStaleKeys = .ok l') (n : Nat) :
    (between ⟨spaces ++ t, m, none⟩ read indent outer keyAllowed key).run (n + 1) = l'.run n := by
  have fetch := fetch_between (l := between ⟨spaces ++ t, m, none⟩ read indent outer keyAllowed key)
    (i := ⟨t, m.over spaces.length, none⟩) rfl rfl (fun none => some (List.length_eq_zero_iff.mp none))
    (skipToToken_spaces spaces all begins) fresh inside
  exact run_succ rfl (fetch.trans here) kept n

/-- A colon is read while the name before it is in reach. -/
theorem run_colon (le : indent ≤ 0) (short : w.length ≤ keyReach) {position : Nat}
    (here : (between ⟨':' :: t, m.over w.length, none⟩ (name :: read) indent outer false
      (some ⟨isRequired, position, m⟩)).fetchHere = .ok l) (kept : l.dropStaleKeys = .ok l') (n : Nat) :
    (between ⟨':' :: t, m.over w.length, none⟩ (name :: read) indent outer false
      (some ⟨isRequired, position, m⟩)).run (n + 1) = l'.run n := by
  refine run_between [] (List.cons_ne_nil _ _) nofun (stops_cons.mpr rfl) ?_ ?_ here kept n
  · rintro k ⟨⟩
    exact isStale_over short
  · exact Int.le_trans le (Int.natCast_nonneg _)

theorem AtLine.dropStaleKeys (h : AtLine rest kinds indent outer none l) : l.dropStaleKeys = .ok l := by
  cases h <;> rfl

/-- The text of a field is read behind its colon. -/
theorem run_scalar (read : List Token) (outer : List Int) (scalar : Scalar spelling s style)
    (leaves : Leaves 1 rest) (some : read ≠ []) :
    ∃ l', (∀ n, (between ⟨' ' :: (spelling ++ rest), m, none⟩ read 0 outer false none).run (n + 1) =
      l'.run n) ∧ AtLine rest (.scalar s style :: read.map (·.kind)) 0 outer none l' := by
  obtain ⟨l', here, atLine⟩ := fetchHere_scalar (m := m.over 1) read outer scalar (Nat.succ_ne_zero _) leaves
  refine ⟨l', run_between [' '] some ?_ (scalar.begins rest) nofun ?_ here atLine.dropStaleKeys, atLine⟩
  · exact List.forall_mem_singleton.mpr rfl
  · exact Int.natCast_nonneg _

/-- **The first field of a record** opens its mapping. -/
theorem run_firstField (atLine : AtLine (w ++ ':' :: ' ' :: (spelling ++ rest)) kinds (-1) [] none l)
    (opened : kinds ≠ []) (letters : ∀ c ∈ w, isNameChar c = true) (nonempty : w ≠ [])
    (short : w.length ≤ keyReach) (scalar : Scalar spelling s style) (leaves : Leaves 1 rest) :
    ∃ l', (∀ n, l.run (n + 3) = l'.run n) ∧
      AtLine rest ((fieldKinds (w, s, style)).reverse ++ .blockMappingStart :: kinds) 0 [-1] none l' := by
  obtain ⟨m, read, start, rfl, name⟩ := run_name atLine opened (by decide) letters nonempty short
  obtain ⟨l', text, atLine'⟩ := run_scalar (m := (m.over w.length).over 1)
    (⟨.value, m.over w.length, (m.over w.length).over 1⟩ :: ⟨.scalar w .plain, m, m.over w.length⟩ ::
      ⟨.key, m, m⟩ :: ⟨.blockMappingStart, m, m⟩ :: read) [-1] scalar leaves (List.cons_ne_nil _ _)
  refine ⟨l', fun n => ?_, atLine'⟩
  rw [name, run_colon (by decide) short (fetchHere_firstColon start) (dropStaleKeys_between nofun), text]

/-- A later field goes on with the mapping. -/
theorem run_laterField (atLine : AtLine (w ++ ':' :: ' ' :: (spelling ++ rest)) kinds 0 outer none l)
    (opened : kinds ≠ []) (letters : ∀ c ∈ w, isNameChar c = true) (nonempty : w ≠ [])
    (short : w.length ≤ keyReach) (scalar : Scalar spelling s style) (leaves : Leaves 1 rest) :
    ∃ l', (∀ n, l.run (n + 3) = l'.run n) ∧
      AtLine rest ((fieldKinds (w, s, style)).reverse ++ kinds) 0 outer none l' := by
  obtain ⟨m, read, start, rfl, name⟩ := run_name atLine opened (by decide) letters nonempty short
  obtain ⟨l', text, atLine'⟩ := run_scalar (m := (m.over w.length).over 1)
    (⟨.value, m.over w.length, (m.over w.length).over 1⟩ :: ⟨.scalar w .plain, m, m.over w.length⟩ ::
      ⟨.key, m, m⟩ :: read) outer scalar leaves (List.cons_ne_nil _ _)
  refine ⟨l', fun n => ?_, atLine'⟩
  rw [name, run_colon (by decide) short (fetchHere_laterColon start) (dropStaleKeys_between nofun), text]

theorem fetchHere_end (start : m.column = 0) :
    (between ⟨[], m, none⟩ read 0 [-1] true none).fetchHere =
      .ok ⟨⟨[], m, none⟩, ⟨.streamEnd, m, m⟩ :: ⟨.blockEnd, m, m⟩ :: read, read.length + 1 + 1, 0, -1, [], false,
        [none], true⟩ := by
  have ends : (between ⟨[], m, none⟩ read 0 [-1] true none).fetchHere =
      (between ⟨[], m, none⟩ read 0 [-1] true none).fetchEnd := rfl
  have here : (between ⟨[], m, none⟩ read 0 [-1] true none).mark.column = 0 := start
  rw [ends, fetchEnd, if_pos here]
  rfl

/-- **The end of a record** closes its mapping. -/
theorem run_end (atLine : AtLine [] kinds 0 [-1] none l) (opened : kinds ≠ []) :
    ∃ l' : Lexer, (∀ n, l.run (n + 1) = l'.run n) ∧ l'.ended = true ∧
      l'.read.map (·.kind) = .streamEnd :: .blockEnd :: kinds := by
  obtain ⟨ahead, fault, count⟩ := atLine.goesOn opened
  obtain ⟨m, read, start, same, skip⟩ := atLine.skipToToken (stops_nil _)
  have fetch := fetch_between fault rfl count skip nofun (by rw [start]; exact Int.le_refl 0)
  rw [fetchHere_end start] at fetch
  refine ⟨_, run_succ ahead fetch rfl, rfl, ?_⟩
  rw [← same]
  rfl

theorem run_ended (ended : l.ended = true) (n : Nat) : l.run n = (l.read.reverse, none) := by
  cases n with
  | zero => rfl
  | succ n => rw [run, ended, if_pos rfl]

end Lexer

/-! ### Whole records -/

/-- The text of a record beside its fields, each a name and a text in a style. -/
inductive Fields : (text : List Char) → List (List Char × List Char × ScalarStyle) → Prop
  | nil : Fields [] []
  | cons {name spelling s rest : List Char} {style : ScalarStyle}
    {fields : List (List Char × List Char × ScalarStyle)} (letters : ∀ c ∈ name, isNameChar c = true)
    (nonempty : name ≠ []) (short : name.length ≤ keyReach) (scalar : Scalar spelling s style)
    (more : Fields rest fields) :
    Fields (name ++ ':' :: ' ' :: (spelling ++ rest)) ((name, s, style) :: fields)

variable {text : List Char} {fields : List (List Char × List Char × ScalarStyle)}

/-- A field ends where the next one begins. -/
theorem Fields.leaves (h : Fields text fields) : Leaves 1 text := by
  cases h with
  | nil => exact .inl rfl
  | @cons name spelling s rest style fields letters nonempty short scalar more =>
      refine .inr ⟨by decide, ?_⟩
      obtain ⟨c, name, rfl⟩ := List.exists_cons_of_ne_nil nonempty
      have inside := isSkipped_of_isNameChar (letters c List.mem_cons_self)
      simp only [isSkipped, Bool.or_eq_false_iff] at inside
      exact stops_cons.mpr (Bool.or_eq_false_iff.mpr inside.1.1)

theorem Fields.length_le (h : Fields text fields) : 3 * fields.length ≤ text.length := by
  induction h with
  | nil => exact Nat.zero_le _
  | @cons name spelling s rest style fields letters nonempty short scalar more ih =>
      have := List.length_pos_iff.mpr nonempty
      simp only [List.length_append, List.length_cons]
      omega

namespace Lexer

variable {l : Lexer} {kinds : List TokenKind}

/-- **The fields of a record**, one after the other. -/
theorem run_fields (h : Fields text fields) {outer : List Int} (atLine : AtLine text kinds 0 outer none l)
    (opened : kinds ≠ []) :
    ∃ l' : Lexer, (∀ n, l.run (n + 3 * fields.length) = l'.run n) ∧
      AtLine [] ((fields.flatMap fieldKinds).reverse ++ kinds) 0 outer none l' := by
  induction h generalizing l kinds with
  | nil => exact ⟨l, fun n => rfl, atLine⟩
  | @cons name spelling s rest style fields letters nonempty short scalar more ih =>
      obtain ⟨l₁, first, atLine₁⟩ := run_laterField atLine opened letters nonempty short scalar more.leaves
      obtain ⟨l', later, atLine'⟩ := ih atLine₁ (by simp [opened])
      refine ⟨l', fun n => ?_, ?_⟩
      · rw [← later n, ← first, List.length_cons, Nat.mul_succ, Nat.add_assoc]
      · rw [List.flatMap_cons, List.reverse_append, List.append_assoc]
        exact atLine'

end Lexer

theorem isPrintable_of_isNameChar {c : Char} (letter : isNameChar c = true) : isPrintable c = true := by
  simp only [isNameChar, Bool.and_eq_true, decide_eq_true_eq, Char.le_def, UInt32.le_iff_toNat_le] at letter
  simp only [isPrintable, Bool.or_eq_true, Bool.and_eq_true, decide_eq_true_eq]
  have least : ('a' : Char).val.toNat = 97 := rfl
  have greatest : ('z' : Char).val.toNat = 122 := rfl
  have same : c.val.toNat = c.toNat := rfl
  omega

theorem Fields.isVisible (h : Fields text fields) : IsVisible text := by
  induction h with
  | nil => exact nofun
  | cons letters nonempty short scalar more ih =>
      refine .append (fun c hc => isPrintable_of_isNameChar (letters c hc)) ?_
      exact .cons rfl (.cons rfl (.append scalar.isVisible ih))

/-- **The tokens of a record** are those of its fields, inside one mapping. -/
theorem tokens_record {f : List Char × List Char × ScalarStyle} (h : Fields text (f :: fields)) :
    (tokens (.ofText text)).2 = none ∧ (tokens (.ofText text)).1.map (·.kind) =
      .streamStart :: .blockMappingStart :: ((f :: fields).flatMap fieldKinds ++ [.blockEnd, .streamEnd]) := by
  have fuel := h.length_le
  have allowed : ∀ c ∈ text, isAllowed c = true := fun c hc => isAllowed_of_isPrintable (h.isVisible c hc)
  rw [Source.ofText_of_allowed allowed, tokens]
  have start : ∀ n, (Lexer.start (.ofSource ⟨text, none⟩)).run (n + 1) =
      (Lexer.between ⟨text, .origin, none⟩ [⟨.streamStart, .origin, .origin⟩] (-1) [] true none).run n :=
    fun n => rfl
  cases h with
  | @cons name spelling s rest style fields letters nonempty short scalar more =>
      obtain ⟨l₁, first, atLine₁⟩ := Lexer.run_firstField (l := Lexer.between _ [⟨.streamStart, .origin, .origin⟩]
        (-1) [] true none) (.here (m := .origin) rfl rfl) (List.cons_ne_nil _ _) letters nonempty short scalar
        more.leaves
      obtain ⟨l₂, later, atLine₂⟩ := Lexer.run_fields more atLine₁ (by simp)
      obtain ⟨l₃, last, ended, kinds⟩ := Lexer.run_end atLine₂ (by simp)
      have run : ∀ n, (Lexer.start (.ofSource ⟨name ++ ':' :: ' ' :: (spelling ++ rest), none⟩)).run
          (n + 1 + 3 * fields.length + 3 + 1) = (l₃.read.reverse, none) := fun n => by
        rw [start, first, later, last, Lexer.run_ended ended]
      rw [List.length_cons] at fuel
      obtain ⟨n, rounds⟩ : ∃ n, (name ++ ':' :: ' ' :: (spelling ++ rest)).length + 3 =
          n + 1 + 3 * fields.length + 3 + 1 :=
        ⟨(name ++ ':' :: ' ' :: (spelling ++ rest)).length - 3 * fields.length - 2, by omega⟩
      rw [rounds, run]
      refine ⟨rfl, ?_⟩
      rw [List.map_reverse, kinds]
      simp only [List.reverse_cons, List.reverse_nil, List.reverse_append, List.reverse_reverse, List.map_cons,
        List.map_nil, List.flatMap_cons, List.append_assoc, List.cons_append, List.nil_append]

end ProjectIndex.Yaml
