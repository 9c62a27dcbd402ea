import ScriptMinifier.Ranking

/-! Script text.

Every part of a script is a list of characters: names, bodies, literals, whole
programs. Positions and lengths count the bytes of the UTF-8 form, so they are
sums over characters (`byteLength`). A word is a run of ASCII letters, digits and
underscores; an identifier is a word that starts with a letter. -/
namespace ScriptMinifier

/-- Script text, character by character. -/
abbrev Text := List Char

namespace Text

/-! ### Characters -/

/-- The character that delimits a placeholder. -/
def mark : Char := '\x00'

/-- ASCII letters, digits and the underscore. -/
def isWordChar (c : Char) : Bool := c.isAlphanum || c == '_'

/-- A word that starts with a letter. -/
def isIdent : Text → Bool
  | [] => false
  | c :: rest => c.isAlpha && rest.all isWordChar

theorem not_isWordChar_mark : isWordChar mark = false := by decide

/-! ### Bytes -/

/-- The number of bytes of the UTF-8 form. -/
def byteLength : Text → Nat
  | [] => 0
  | c :: rest => c.utf8Size + byteLength rest

/-- The UTF-8 form. -/
def bytes (t : Text) : List UInt8 := t.flatMap String.utf8EncodeChar

@[simp] theorem byteLength_nil : byteLength [] = 0 := rfl

@[simp] theorem byteLength_cons (c : Char) (t : Text) :
    byteLength (c :: t) = c.utf8Size + byteLength t := rfl

@[simp] theorem byteLength_append (s t : Text) :
    byteLength (s ++ t) = byteLength s + byteLength t := by
  induction s with
  | nil => simp
  | cons c rest ih => simp [ih, Nat.add_assoc]

theorem length_bytes (t : Text) : (bytes t).length = byteLength t := by
  induction t with
  | nil => rfl
  | cons c rest ih => simp_all [bytes, byteLength]

/-! ### A printable form

Messages show text in printable ASCII: a placeholder mark is a hash, a newline
stays, other control characters are spaces, and every other byte is a question
mark. -/

/-- The character a byte is shown as. -/
def shownByte (b : UInt8) : Char :=
  if b = 0 then '#'
  else if b = 10 then '\n'
  else if b ≤ 0x20 then ' '
  else if b < 0x7f then Char.ofNat b.toNat
  else '?'

/-- A byte string in printable ASCII, one character a byte. -/
def shownBytes (bs : List UInt8) : Text := bs.map shownByte

/-- A text in printable ASCII. -/
def shown (t : Text) : Text := shownBytes (bytes t)

/-! ### Prefixes and suffixes -/

/-- The text after a given beginning. -/
def dropStart? (start : Text) (t : Text) : Option Text :=
  if start.isPrefixOf t then some (t.drop start.length) else none

/-- The text before a given ending. -/
def dropEnd? (ending : Text) (t : Text) : Option Text :=
  if ending.isSuffixOf t then some (t.take (t.length - ending.length)) else none

theorem dropStart?_eq_some {start t rest : Text} (h : dropStart? start t = some rest) :
    t = start ++ rest := by
  unfold dropStart? at h
  split at h
  · rename_i hp
    obtain ⟨tail, rfl⟩ := List.isPrefixOf_iff_prefix.1 hp
    simp at h
    simp [h]
  · simp at h

/-! ### Cutting at a character or at a text -/

/-- A character put before the first of some pieces. -/
def extendFirst (c : Char) : List Text → List Text
  | [] => [[c]]
  | piece :: more => (c :: piece) :: more

/-- A character put before the first part of a cut. -/
def extendCut (c : Char) (cut : Option (Text × Text)) : Option (Text × Text) :=
  cut.map fun (before, after) => (c :: before, after)

/-- The pieces of a text between the occurrences of a character. -/
def pieces (sep : Char) : Text → List Text
  | [] => [[]]
  | c :: rest => if c = sep then [] :: pieces sep rest else extendFirst c (pieces sep rest)

/-- Pieces joined by a character. -/
def joined (sep : Char) (ts : List Text) : Text := List.intercalate [sep] ts

/-- What stands before and after the first occurrence of a character. -/
def cutAt? (sep : Char) : Text → Option (Text × Text)
  | [] => none
  | c :: rest => if c = sep then some ([], rest) else extendCut c (cutAt? sep rest)

/-- What stands before and after the first occurrence of a text that is not empty. -/
def cutFirst? (sep : Text) : Text → Option (Text × Text)
  | [] => none
  | c :: rest =>
    match dropStart? sep (c :: rest) with
    | some after => some ([], after)
    | none => extendCut c (cutFirst? sep rest)

/-- What stands before and after the last occurrence of a text that is not empty. -/
def cutLast? (sep : Text) : Text → Option (Text × Text)
  | [] => none
  | c :: rest =>
    match extendCut c (cutLast? sep rest) with
    | some cut => some cut
    | none => (dropStart? sep (c :: rest)).map fun after => ([], after)

theorem extendFirst_ne_nil (c : Char) (ts : List Text) : extendFirst c ts ≠ [] := by
  cases ts <;> simp [extendFirst]

theorem extendCut_eq_some {c : Char} {cut : Option (Text × Text)} {before after : Text} :
    extendCut c cut = some (before, after) ↔
      ∃ tail, before = c :: tail ∧ cut = some (tail, after) := by
  cases cut with
  | none => simp [extendCut]
  | some cut =>
    obtain ⟨first, last⟩ := cut
    simp only [extendCut, Option.map_some, Option.some.injEq, Prod.mk.injEq]
    constructor
    · rintro ⟨rfl, rfl⟩
      exact ⟨first, rfl, rfl, rfl⟩
    · rintro ⟨tail, rfl, rfl, rfl⟩
      exact ⟨rfl, rfl⟩

theorem pieces_ne_nil (sep : Char) (t : Text) : pieces sep t ≠ [] := by
  cases t with
  | nil => simp [pieces]
  | cons c rest =>
    rw [pieces]
    split
    · simp
    · exact extendFirst_ne_nil c _

theorem joined_extendFirst (sep c : Char) {ts : List Text} (h : ts ≠ []) :
    joined sep (extendFirst c ts) = c :: joined sep ts := by
  match ts with
  | [] => exact absurd rfl h
  | [piece] => simp [extendFirst, joined, List.intercalate]
  | piece :: second :: more => simp [extendFirst, joined, List.intercalate]

theorem joined_pieces (sep : Char) (t : Text) : joined sep (pieces sep t) = t := by
  induction t with
  | nil => simp [pieces, joined, List.intercalate]
  | cons c rest ih =>
    have hne := pieces_ne_nil sep rest
    rw [pieces]
    split
    · rename_i hc
      match hp : pieces sep rest with
      | [] => exact absurd hp hne
      | piece :: more =>
        rw [hp] at ih
        simpa [joined, List.intercalate, hc] using ih
    · rw [joined_extendFirst sep c hne, ih]

theorem cutAt?_eq_some {sep : Char} {t before after : Text}
    (h : cutAt? sep t = some (before, after)) : t = before ++ sep :: after := by
  induction t generalizing before with
  | nil => simp [cutAt?] at h
  | cons c rest ih =>
    rw [cutAt?] at h
    split at h
    · rename_i hc
      simp at h
      simp [← h.1, ← h.2, hc]
    · obtain ⟨tail, rfl, hcut⟩ := extendCut_eq_some.1 h
      simp [ih hcut]

theorem cutFirst?_eq_some {sep t before after : Text}
    (h : cutFirst? sep t = some (before, after)) : t = before ++ sep ++ after := by
  induction t generalizing before with
  | nil => simp [cutFirst?] at h
  | cons c rest ih =>
    rw [cutFirst?] at h
    split at h
    · rename_i hd
      simp only [Option.some.injEq, Prod.mk.injEq] at h
      rw [← h.1, ← h.2]
      exact dropStart?_eq_some hd
    · obtain ⟨tail, rfl, hcut⟩ := extendCut_eq_some.1 h
      rw [ih hcut]
      rfl

/-! ### Order

Names are listed in ascending order of their characters, which is also the order
of their bytes. -/

/-- Whether one text comes no later than another. -/
def precedes : Text → Text → Bool
  | [], _ => true
  | _ :: _, [] => false
  | a :: s, b :: t => a.toNat < b.toNat || (a.toNat == b.toNat && precedes s t)

/-- The distinct texts of a list, each where it first stands. -/
def distinct : List Text → List Text
  | [] => []
  | t :: rest => t :: (distinct rest).filter (· != t)

/-- The distinct texts of a list, in ascending order. -/
def sortedSet (ts : List Text) : List Text := ranked precedes (distinct ts)

/-- Keyed items in ascending order of their keys. -/
def sortedByKey {α : Type} (items : List (Text × α)) : List (Text × α) :=
  ranked (fun a b => precedes a.1 b.1) items

theorem mem_distinct {t : Text} {ts : List Text} : t ∈ distinct ts ↔ t ∈ ts := by
  induction ts with
  | nil => simp [distinct]
  | cons s rest ih =>
    by_cases h : t = s
    · simp [distinct, h]
    · simp [distinct, h, ih]

theorem nodup_distinct (ts : List Text) : (distinct ts).Nodup := by
  induction ts with
  | nil => exact List.nodup_nil
  | cons t rest ih =>
    rw [distinct, List.nodup_cons]
    exact ⟨by simp, ih.sublist List.filter_sublist⟩

end Text
end ScriptMinifier
