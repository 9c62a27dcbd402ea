import ScriptMinifier.Proofs.Text.Bytes
import ScriptMinifier.Proofs.Text.Partition

/-! Segmenting a text byte by byte.

A scanner that stands at a byte tells the kind of the next segment by this byte, looks for the byte
at which the segment ends, and cuts the segment out of the text, which is possible at boundaries
only. It finds the segments of the text with the bytes at which they start (`scanFrom_append`): a
byte of a character beyond ASCII is never taken for a word character or a mark, so a run between
words never ends inside a character, although the scanner would go on to the next boundary if it did
(`runEnd_other`). Together this is `partitioned_segments`. -/
namespace ScriptMinifier.Text

/-! ### The scanner -/

/-- The first byte from one on that does not pass a test, or the end. -/
def runEnd (q : UInt8 → Bool) (bs : List UInt8) (n : Nat) : Nat :=
  if h : n < bs.length then
    if q bs[n] then runEnd q bs (n + 1) else n
  else n
termination_by bs.length - n

/-- The kind of the segment that starts at a byte, and the byte at which it ends. -/
def pieceAt? (bs : List UInt8) (start : Nat) : Option ((Text → Segment) × Nat) :=
  bs[start]?.map fun b =>
    if b = 0 then (.placeholder, min (runEnd (· != 0) bs (start + 1) + 1) bs.length)
    else if isWordByte b then (.word, runEnd isWordByte bs (start + 1))
    else (.other, runEnd isContinuation bs (runEnd isOtherByte bs (start + 1)))

/-- The text between two bytes, if it can be cut out. -/
def slice? (t : Text) (start stop : Nat) : Option Text :=
  (cutByte? start t).bind fun cut => (cutByte? (stop - start) cut.2).map Prod.fst

theorem le_runEnd (q : UInt8 → Bool) (bs : List UInt8) (n : Nat) : n ≤ runEnd q bs n := by
  fun_induction runEnd q bs n with
  | case1 n _ _ ih => exact Nat.le_of_succ_le ih
  | case2 n => exact Nat.le_refl n
  | case3 n => exact Nat.le_refl n

/-- A segment starts before the end of the text and is not empty. -/
theorem lt_of_pieceAt? {bs : List UInt8} {start stop : Nat} {kind : Text → Segment}
    (h : pieceAt? bs start = some (kind, stop)) : start < bs.length ∧ start < stop := by
  obtain ⟨b, hb, hpiece⟩ := Option.map_eq_some_iff.1 h
  have hlt : start < bs.length := (List.getElem?_eq_some_iff.1 hb).1
  refine ⟨hlt, ?_⟩
  have hmark := le_runEnd (· != 0) bs (start + 1)
  have hword := le_runEnd isWordByte bs (start + 1)
  have hother := le_runEnd isOtherByte bs (start + 1)
  have hguard := le_runEnd isContinuation bs (runEnd isOtherByte bs (start + 1))
  split at hpiece
  · rw [← (Prod.mk.inj hpiece).2]
    omega
  · split at hpiece
    · rw [← (Prod.mk.inj hpiece).2]
      exact hword
    · rw [← (Prod.mk.inj hpiece).2]
      exact Nat.lt_of_lt_of_le hother hguard

/-- The segments from a byte on, with the bytes at which they start; none if one cannot be cut
out. -/
def scanFrom (t : Text) (start : Nat) : Option (List (Nat × Segment)) :=
  match h : pieceAt? (bytes t) start with
  | none => some []
  | some (kind, stop) =>
    have : (bytes t).length - stop < (bytes t).length - start := by
      have := lt_of_pieceAt? h
      omega
    (slice? t start stop).bind fun piece => (scanFrom t stop).map ((start, kind piece) :: ·)
termination_by (bytes t).length - start

/-! ### Where segments end -/

variable {run rest : Text} {c : Char}

theorem runEnd_eq (q : UInt8 → Bool) (bs : List UInt8) (n : Nat) :
    runEnd q bs n = n + ((bs.drop n).takeWhile q).length := by
  fun_induction runEnd q bs n with
  | case1 n hlt hq ih =>
    rw [ih, List.drop_eq_getElem_cons hlt, List.takeWhile_cons_of_pos hq, List.length_cons]
    omega
  | case2 n hlt hq =>
    rw [List.drop_eq_getElem_cons hlt, List.takeWhile_cons_of_neg hq]
    rfl
  | case3 n hlt =>
    rw [List.drop_eq_nil_of_le (Nat.not_lt.1 hlt)]
    rfl

/-- At a boundary there is no way to go to the next one. -/
theorem runEnd_isContinuation {bs : List UInt8} {n : Nat} (h : isBoundary bs n = true) :
    runEnd isContinuation bs n = n := by
  unfold runEnd
  split
  · rename_i hlt
    rw [isBoundary, List.getElem?_eq_getElem hlt, Bool.not_eq_true'] at h
    rw [h, if_neg Bool.false_ne_true]
  · rfl

/-- After the first byte of a character, a run of bytes goes on to the end of a run of
characters. -/
theorem runEnd_bytes {q : UInt8 → Bool} {p : Char → Bool} (hqp : Bytewise q p) (before : Text)
    (hc : ∀ b ∈ (String.utf8EncodeChar c).tail, q b = true) (hrun : ∀ d ∈ run, p d = true)
    (hrest : ∀ d ∈ rest.head?, p d = false) :
    runEnd q (bytes (before ++ (c :: run ++ rest))) (byteLength before + 1) =
      byteLength before + byteLength (c :: run) := by
  obtain ⟨b, more, hbytes, -⟩ := exists_first_byte c
  have hdrop : (bytes (before ++ (c :: run ++ rest))).drop (byteLength before + 1) =
      more ++ bytes (run ++ rest) := by
    rw [← List.drop_drop, drop_bytes, bytes, List.cons_append, List.flatMap_cons, hbytes]
    rfl
  have hrest' : rest.takeWhile p = [] := by
    cases rest with
    | nil => rfl
    | cons d tail => exact List.takeWhile_cons_of_neg (by simp [hrest d rfl])
  have hsize : c.utf8Size = more.length + 1 := by
    rw [← String.length_utf8EncodeChar, hbytes, List.length_cons]
  rw [hbytes, List.tail_cons] at hc
  rw [runEnd_eq, hdrop, List.takeWhile_append_of_pos hc, takeWhile_bytes hqp,
    List.takeWhile_append_of_pos hrun, hrest', List.append_nil, List.length_append, length_bytes,
    byteLength_cons, hsize]
  omega

/-- The kind of a segment is told by its first character. -/
theorem pieceAt?_bytes {bs : List UInt8} {before t : Text} (hbs : bs = bytes (before ++ c :: t)) :
    pieceAt? bs (byteLength before) = some (
      if c = mark then
        (.placeholder, min (runEnd (· != 0) bs (byteLength before + 1) + 1) bs.length)
      else if isWordChar c then (.word, runEnd isWordByte bs (byteLength before + 1))
      else (.other, runEnd isContinuation bs (runEnd isOtherByte bs (byteLength before + 1)))) := by
  obtain ⟨b, more, hbytes, -⟩ := exists_first_byte c
  have hmem : b ∈ String.utf8EncodeChar c := hbytes ▸ List.mem_cons_self
  have hfirst : bs[byteLength before]? = some b := by
    rw [← List.head?_drop, hbs, drop_bytes, bytes, List.flatMap_cons, hbytes]
    rfl
  have hmark : b = 0 ↔ c = mark := by
    have h : (b != 0) = (c != mark) := bytewise_mark c b hmem
    rw [← bne_eq_false_iff_eq, h, bne_eq_false_iff_eq]
  rw [pieceAt?, hfirst, Option.map_some, bytewise_word c b hmem]
  simp only [hmark]

/-- The constructor of a segment. -/
def Segment.kind : Segment → Text → Segment
  | .word _ => .word
  | .placeholder _ => .placeholder
  | .other _ => .other

theorem Segment.kind_text (g : Segment) : g.kind g.text = g := by
  cases g <;> rfl

variable {g : Segment} {gs : List Segment} {w o : Text}

theorem runEnd_word (hgs : Canonical (.word w :: gs)) (before : Text) :
    runEnd isWordByte (bytes (before ++ (w ++ gs.flatMap Segment.text))) (byteLength before + 1) =
      byteLength before + byteLength w := by
  cases hgs with
  | word hne hw hnext hrest =>
    obtain ⟨c, run, rfl⟩ := List.exists_cons_of_ne_nil hne
    rw [List.forall_mem_cons] at hw
    refine runEnd_bytes bytewise_word before ?_ hw.2 fun d hd => ?_
    · rw [tail_bytes_of_ascii (toNat_lt_of_isWordChar hw.1)]
      exact nofun
    · obtain ⟨rest, hrest'⟩ := List.head?_eq_some_iff.1 hd
      exact hrest.startsNoWord hnext d rest hrest'

theorem runEnd_mark {inner : Text} (hinner : mark ∉ inner) (before rest : Text)
    (hrest : ∀ d ∈ rest.head?, d = mark) :
    runEnd (· != 0) (bytes (before ++ (mark :: inner ++ rest))) (byteLength before + 1) =
      byteLength before + byteLength (mark :: inner) := by
  refine runEnd_bytes bytewise_mark before ?_ (fun d hd => ?_) fun d hd => ?_
  · rw [tail_bytes_of_ascii (by decide)]
    exact nofun
  · exact bne_iff_ne.2 fun heq => hinner (heq ▸ hd)
  · rw [hrest d hd, bne_self_eq_false]

theorem runEnd_other (hgs : Canonical (.other o :: gs)) (before : Text) :
    runEnd isOtherByte (bytes (before ++ (o ++ gs.flatMap Segment.text))) (byteLength before + 1) =
      byteLength before + byteLength o := by
  cases hgs with
  | other hne ho hnext hrest =>
    obtain ⟨c, run, rfl⟩ := List.exists_cons_of_ne_nil hne
    rw [List.forall_mem_cons] at ho
    refine runEnd_bytes bytewise_other before (fun b hb => ?_) ho.2 (hrest.startsNoOther hnext)
    rw [bytewise_other c b (List.mem_of_mem_tail hb), ho.1]

theorem isBoundary_append_bytes (s t u : Text) :
    isBoundary (bytes (s ++ (t ++ u))) (byteLength s + byteLength t) = true :=
  isBoundary_bytes.2 ⟨s ++ t, u, (List.append_assoc s t u).symm, byteLength_append s t⟩

/-- The scanner finds the end of each segment. -/
theorem pieceAt?_canonical (hgs : Canonical (g :: gs)) (before : Text) :
    pieceAt? (bytes (before ++ (g.text ++ gs.flatMap Segment.text))) (byteLength before) =
      some (g.kind, byteLength before + byteLength g.text) := by
  generalize hbs : bytes (before ++ (g.text ++ gs.flatMap Segment.text)) = bs
  have hlength :
      bs.length =
        byteLength before + (byteLength g.text + byteLength (gs.flatMap Segment.text)) := by
    rw [← hbs, length_bytes, byteLength_append, byteLength_append]
  have hmark : byteLength [mark] = 1 := by decide
  cases hgs with
  | @word w _ hne hw hnext hrest =>
    have hend := runEnd_word (.word hne hw hnext hrest) before
    obtain ⟨c, run, rfl⟩ := List.exists_cons_of_ne_nil hne
    have hc := hw c List.mem_cons_self
    rw [pieceAt?_bytes hbs.symm, if_neg (ne_mark_of_isWordChar hc), if_pos hc, ← hbs]
    exact congrArg (fun stop => some (Segment.word, stop)) hend
  | @placeholder inner _ hinner hrest =>
    have hend := runEnd_mark hinner before ([mark] ++ gs.flatMap Segment.text) (by simp)
    rw [← List.append_assoc (mark :: inner)] at hend
    rw [pieceAt?_bytes hbs.symm, if_pos rfl, hlength, ← hbs]
    refine congrArg (fun stop => some (Segment.placeholder, stop)) ?_
    rw [Segment.text, hend, byteLength_append, hmark]
    omega
  | @unclosed inner hinner =>
    have hend := runEnd_mark hinner before [] (by simp)
    rw [pieceAt?_bytes hbs.symm, if_pos rfl, hlength, ← hbs]
    refine congrArg (fun stop => some (Segment.placeholder, stop)) ?_
    rw [Segment.text, List.flatMap_nil, hend, byteLength_nil]
    omega
  | @other o _ hne ho hnext hrest =>
    have hend := runEnd_other (.other hne ho hnext hrest) before
    have hboundary := isBoundary_append_bytes before o (gs.flatMap Segment.text)
    obtain ⟨c, run, rfl⟩ := List.exists_cons_of_ne_nil hne
    have hc := ho c List.mem_cons_self
    rw [pieceAt?_bytes hbs.symm, if_neg (ne_mark_of_isOtherChar hc),
      if_neg (by rw [not_isWordChar_of_isOtherChar hc]; exact Bool.false_ne_true), ← hbs]
    refine congrArg (fun stop => some (Segment.other, stop)) ?_
    rw [Segment.text, hend, runEnd_isContinuation hboundary]

theorem slice?_append (s t u : Text) :
    slice? (s ++ (t ++ u)) (byteLength s) (byteLength s + byteLength t) = some t := by
  rw [slice?, cutByte?_append, Option.bind_some, Nat.add_sub_cancel_left, cutByte?_append]
  rfl

/-- The scanner finds the segments, from the start of any of them on. -/
theorem scanFrom_append (hgs : Canonical gs) (before : Text) :
    scanFrom (before ++ gs.flatMap Segment.text) (byteLength before) = some
    (located (byteLength before) gs) := by
  induction gs generalizing before with
  | nil =>
    have hnone : pieceAt? (bytes (before ++ [].flatMap Segment.text)) (byteLength before) =
        none := by
      rw [pieceAt?, List.flatMap_nil, List.append_nil,
        List.getElem?_eq_none (Nat.le_of_eq (length_bytes before))]
      rfl
    rw [scanFrom]
    split
    · rfl
    · rename_i h
      rw [hnone] at h
      cases h
  | cons g gs ih =>
    have hrest := ih hgs.tail (before ++ g.text)
    rw [List.append_assoc, byteLength_append] at hrest
    rw [scanFrom, List.flatMap_cons]
    split
    · rename_i h
      rw [pieceAt?_canonical hgs] at h
      cases h
    · rename_i kind stop h
      rw [pieceAt?_canonical hgs] at h
      obtain ⟨rfl, rfl⟩ := Prod.mk.inj (Option.some.inj h)
      rw [slice?_append, Option.bind_some, hrest, Segment.kind_text]
      rfl

/-! ### Partitions -/

theorem located_append (n : Nat) (gs hs : List Segment) :
    located n (gs ++ hs) = located n gs ++ located
    (n + byteLength (gs.flatMap Segment.text)) hs := by
  induction gs generalizing n with
  | nil => rfl
  | cons g gs ih =>
    rw [List.cons_append, located, located, ih, List.flatMap_cons, byteLength_append, Nat.add_assoc]
    rfl

/-- The segments of a text as a partition of its bytes. -/
structure Partitioned (t : Text) : Prop where
  /-- Scanning the bytes gives the segments with the bytes at which they start, and cuts out each
  one. -/
  scanned : scanFrom t 0 = some (located 0 (segments t))
  /-- A text can be cut where a character starts or the text ends, and nowhere else. -/
  cuttable : ∀ n, (∃ before after : Text, cutByte? n t = some (before, after)) ↔
    isBoundary (bytes t) n = true
  concatenated : (segments t).flatMap Segment.text = t
  nonempty : ∀ g ∈ segments t, g.text ≠ []
  /-- A segment starts after the bytes of those before it. -/
  placed : ∀ (before after : List Segment) (g : Segment), segments t = before ++ g :: after →
    located 0 (segments t) = located 0 before ++ (byteLength (before.flatMap Segment.text), g) ::
      located (byteLength (before.flatMap Segment.text) + byteLength g.text) after
  bounded : ∀ (before after : List Segment) (g : Segment), segments t = before ++ g :: after →
    isBoundary (bytes t) (byteLength (before.flatMap Segment.text)) = true ∧
      isBoundary (bytes t) (byteLength (before.flatMap Segment.text) + byteLength g.text) = true
  /-- A run between words ends at a boundary without going on to one. -/
  unguarded : ∀ (before after : List Segment) (o : Text), segments t = before ++ .other o :: after →
    runEnd isOtherByte (bytes t) (byteLength (before.flatMap Segment.text) + 1) =
      byteLength (before.flatMap Segment.text) + byteLength o
  /-- A placeholder has a mark at each end; only the last segment may lack the second. -/
  placeholders : ∀ (before after : List Segment) (p : Text),
    segments t = before ++ .placeholder p :: after →
    ∃ inner : Text, mark ∉ inner ∧ (p = mark :: inner ++ [mark] ∨ p = mark :: inner ∧ after = [])
  words : ∀ w, .word w ∈ segments t → ∀ b ∈ bytes w, isWordByte b = true
  others : ∀ o, .other o ∈ segments t → ∀ b ∈ bytes o, isWordByte b = false ∧ b ≠ 0
  apart : ∀ (before after : List Segment) (g h : Segment), segments t = before ++ g :: h :: after →
    ¬ ((∃ w v, g = .word w ∧ h = .word v) ∨ ∃ o v, g = .other o ∧ h = .other v)
  /-- No other list of such segments spells the text. -/
  unique : ∀ gs, Canonical gs → gs.flatMap Segment.text = t → gs = segments t
  /-- The text after some of the segments has the others, -/
  resumed : ∀ before after : List Segment, segments t = before ++ after →
    cutByte? (byteLength (before.flatMap Segment.text)) t =
        some (before.flatMap Segment.text, after.flatMap Segment.text) ∧
      segments (after.flatMap Segment.text) = after
  /-- and the text from a boundary inside a run between words on has what is left of the run and the
  others. -/
  shortened : ∀ (before after : List Segment) (o : Text) (n : Nat),
    segments t = before ++ .other o :: after →
    isBoundary (bytes o) n = true → n < byteLength o → ∃ lost kept : Text, o = lost ++ kept ∧
      byteLength lost = n ∧
      cutByte? (byteLength (before.flatMap Segment.text) + n) t =
        some (before.flatMap Segment.text ++ lost, kept ++ after.flatMap Segment.text) ∧
      segments (kept ++ after.flatMap Segment.text) = .other kept :: after

/-- **Segmenting partitions the bytes of a text.** -/
theorem partitioned_segments (t : Text) : Partitioned t := by
  have hcanonical := canonical_segments t
  have hspells := flatMap_text_segments t
  -- the segments from one of them on
  have hfrom : ∀ {before after}, segments t = before ++ after →
      Canonical after ∧ t = before.flatMap Segment.text ++ after.flatMap Segment.text := by
    intro before after h
    rw [h, List.flatMap_append] at hspells
    rw [h] at hcanonical
    exact ⟨hcanonical.of_append, hspells.symm⟩
  have hmem : ∀ {g}, g ∈ segments t → ∃ gs, Canonical (g :: gs) := by
    intro g hg
    obtain ⟨before, after, h⟩ := List.append_of_mem hg
    exact ⟨after, (hfrom h).1⟩
  constructor
  case scanned =>
    have h := scanFrom_append hcanonical []
    rwa [List.nil_append, hspells] at h
  case cuttable =>
    intro n
    simp only [cutByte?_eq_some_iff, isBoundary_bytes]
  case concatenated => exact hspells
  case nonempty =>
    intro g hg
    obtain ⟨gs, hgs⟩ := hmem hg
    exact hgs.text_ne_nil
  case placed =>
    intro before after g h
    rw [h, located_append, Nat.zero_add, located]
  case bounded =>
    intro before after g h
    obtain ⟨-, ht⟩ := hfrom h
    rw [List.flatMap_cons] at ht
    exact ⟨isBoundary_bytes.2 ⟨_, _, ht, rfl⟩, by rw [ht]; exact isBoundary_append_bytes _ _ _⟩
  case unguarded =>
    intro before after o h
    obtain ⟨hafter, ht⟩ := hfrom h
    have hend := runEnd_other hafter (before.flatMap Segment.text)
    rwa [← Segment.text.eq_3 o, ← List.flatMap_cons, ← ht] at hend
  case placeholders =>
    intro before after p h
    exact (hfrom h).1.placeholder_eq
  case words =>
    intro w hw b hb
    obtain ⟨gs, hgs⟩ := hmem hw
    obtain ⟨c, hc, hbc⟩ := List.mem_flatMap.1 hb
    rw [bytewise_word c b hbc, hgs.word_mem c hc]
  case others =>
    intro o ho b hb
    obtain ⟨gs, hgs⟩ := hmem ho
    obtain ⟨c, hc, hbc⟩ := List.mem_flatMap.1 hb
    have hother := bytewise_other c b hbc
    rw [hgs.other_mem c hc, isOtherByte, Bool.and_eq_true, Bool.not_eq_true', bne_iff_ne] at hother
    exact hother
  case apart =>
    intro before after g h hsplit
    exact (hfrom hsplit).1.not_alike
  case unique =>
    intro gs hgs ht
    rw [← ht, hgs.segments_eq]
  case resumed =>
    intro before after h
    obtain ⟨-, ht⟩ := hfrom h
    exact ⟨cutByte?_eq_some_iff.2 ⟨ht, rfl⟩, segments_after h⟩
  case shortened =>
    intro before after o n h hboundary hlt
    obtain ⟨lost, kept, rfl, rfl⟩ := isBoundary_bytes.1 hboundary
    obtain ⟨-, ht⟩ := hfrom h
    have hkept : kept ≠ [] := by
      rintro rfl
      rw [List.append_nil] at hlt
      exact Nat.lt_irrefl _ hlt
    refine ⟨lost, kept, rfl, rfl, cutByte?_eq_some_iff.2 ⟨?_, byteLength_append _ _⟩,
      segments_inside h hkept⟩
    rw [ht, List.flatMap_cons, Segment.text, List.append_assoc, List.append_assoc]

/-- A character beyond ASCII is between words with all its bytes, and a mark may stay open. -/
example : scanFrom "é(a\x00π".toList 0 =
    some [(0, .other "é(".toList), (3, .word "a".toList), (4, .placeholder "\x00π".toList)] := by
  decide +kernel

end ScriptMinifier.Text
