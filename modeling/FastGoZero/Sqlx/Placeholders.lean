import FastGoZero.Lib.Fallible
import FastGoZero.Sqlx.Format

/-!
# What a formatted statement keeps of its query

A query is read as a sequence of pieces: placeholders, quoted parts, and single bytes. The output
of `format` should be the pieces in order, with the argument in the place of each placeholder.
It is, but for two kinds of pieces: a colon or a dollar sign without digits is left out, and what
follows a quote that is not closed is written and then read once more.
-/

namespace FastGoZero.Sqlx

open Lib Lang List
open Lib.Str (bytes)

inductive Piece where
  | plain (ch : UInt8)
  | bare (ch : UInt8)
  | mark (placeholder : Str) (index : Nat)
  | quoted (text : Str)
  | unclosed (ch : UInt8) (rest : Str) (argIndex : Nat)
deriving DecidableEq

variable (args : List GoValue)

/-- What is written for the argument at an index. -/
def argText (index : Nat) : Str :=
  match args[index]? with
  | none => []
  | some arg =>
    match writeValue arg with
    | .ok text => text
    | .error _ => []

namespace Piece

def source : Piece → Str
  | plain ch => [ch]
  | bare ch => [ch]
  | mark placeholder _ => placeholder
  | quoted text => text
  | unclosed ch rest _ => ch :: rest

/-- What should stand in its place. -/
def text : Piece → Str
  | mark _ index => argText args index
  | piece => piece.source

def isBare : Piece → Bool
  | bare _ => true
  | _ => false

/-- The loop writes nothing for it. -/
def Silent (piece : Piece) : Prop :=
  piece.isBare = true ∨ piece.text args = []

end Piece

/-- The pieces of a query, of which the next unnumbered placeholder takes the argument at the
index. -/
def pieces : Nat → Nat → Str → List Piece
  | fuel + 1, argIndex, ch :: rest =>
    if ch = 63 then .mark [ch] argIndex :: pieces fuel (argIndex + 1) rest
    else if ch = 58 ∨ ch = 36 then
      let number := rest.takeWhile isDigit
      if number = [] then .bare ch :: pieces fuel argIndex rest
      else
        let index := (atoi number).getD 0 - 1
        .mark (ch :: number) index ::
          pieces fuel (max argIndex (index + 1)) (rest.drop number.length)
    else if ch = quote ∨ ch = doubleQuote ∨ ch = backquote then
      match scanQuoted ch rest with
      | .ok (written, some following) => .quoted (ch :: written) :: pieces fuel argIndex following
      | _ => [.unclosed ch rest argIndex]
    else .plain ch :: pieces fuel argIndex rest
  | _, _, _ => []

def piecesOf (argIndex : Nat) (query : Str) : List Piece :=
  pieces query.length argIndex query

open Piece

def allText (ps : List Piece) : Str := ps.flatMap (Piece.text args)

def keptText (ps : List Piece) : Str :=
  allText args (ps.filter fun piece => !piece.isBare)

/-- Every colon and dollar sign outside of quotes has digits, and the loop writes nothing when it
reads once more what follows a quote that is not closed. -/
def Copied (query : Str) : Prop :=
  (∀ ch, bare ch ∉ piecesOf 0 query) ∧
    ∀ ch rest argIndex, unclosed ch rest argIndex ∈ piecesOf 0 query →
      ∀ piece ∈ piecesOf argIndex rest, piece.Silent args

/-- A quoted part is copied: up to its closing quote, or to the end. -/
theorem scanQuoted_copies (ch : UInt8) (text : Str) {written : Str}
    {following : Option Str} (scanned : scanQuoted ch text = .ok (written, following)) :
    text = written ++ following.getD [] := by
  fun_induction scanQuoted ch text generalizing written following with
  | case1 =>
    cases scanned
    rfl
  | case2 => cases scanned
  | case3 next rest ih =>
    obtain ⟨⟨inner, after⟩, inside, ⟨⟩⟩ := map_eq_ok.mp scanned
    exact congrArg (backslash :: next :: ·) (ih inside)
  | case4 rest =>
    cases scanned
    rfl
  | case5 cur rest _ _ ih =>
    obtain ⟨⟨inner, after⟩, inside, ⟨⟩⟩ := map_eq_ok.mp scanned
    exact congrArg (cur :: ·) (ih inside)

variable {text rest : Str} {argIndex fuel : Nat} {args : List GoValue} {ps : List Piece}
  {out result : Str} {ch : UInt8}

theorem length_following {written following : Str}
    (scanned : scanQuoted ch text = .ok (written, some following)) :
    following.length ≤ text.length := by
  rw [scanQuoted_copies ch text scanned]
  simp

theorem length_drop_number (rest : Str) :
    (rest.drop (rest.takeWhile isDigit).length).length ≤ rest.length := by
  simp

theorem takeWhile_append_drop (rest : Str) :
    rest.takeWhile isDigit ++ rest.drop (rest.takeWhile isDigit).length = rest := by
  have front := prefix_iff_eq_take.mp ( takeWhile_prefix isDigit (l := rest))
  exact (congrArg (· ++ _) front).trans (take_append_drop _ rest)

/-- With enough fuel the pieces do not depend on it. -/
theorem pieces_fuel (fuel other argIndex : Nat) (text : Str) (enough : text.length ≤ fuel)
    (enoughToo : text.length ≤ other) : pieces fuel argIndex text = pieces other argIndex text := by
  induction fuel generalizing other argIndex text with
  | zero =>
    obtain rfl : text = [] := eq_nil_of_length_eq_zero (Nat.le_zero.mp enough)
    cases other <;> rfl
  | succ fuel ih =>
    cases text with
    | nil => cases other <;> rfl
    | cons ch rest =>
      obtain ⟨other, rfl⟩ : ∃ less, other = less + 1 :=
        ⟨other - 1, by rw [length_cons] at enoughToo; omega⟩
      rw [length_cons] at enough enoughToo
      have shorter : ∀ i (part : Str), part.length ≤ rest.length →
          pieces fuel i part = pieces other i part :=
        fun i part short => ih other i part (by omega) (by omega)
      rw [pieces, pieces, shorter _ rest (Nat.le_refl _), shorter _ rest (Nat.le_refl _)]
      simp only [shorter _ _ (length_drop_number rest)]
      cases scanned : scanQuoted ch rest with
      | error failure => rfl
      | ok result =>
        obtain ⟨written, following⟩ := result
        cases following with
        | none => rfl
        | some following => simp only [shorter _ _ (length_following scanned)]

theorem pieces_eq_piecesOf (enough : text.length ≤ fuel) :
    pieces fuel argIndex text = piecesOf argIndex text :=
  pieces_fuel fuel text.length argIndex text enough (Nat.le_refl _)

theorem pieces_end (ends : ∀ less ch rest, fuel = Nat.succ less → text = ch :: rest → False) :
    pieces fuel argIndex text = [] := by
  cases fuel with
  | zero => rfl
  | succ fuel =>
    cases text with
    | nil => rfl
    | cons ch rest => exact (ends fuel ch rest rfl rfl).elim

theorem source_pieces (fuel argIndex : Nat) (text : Str) (enough : text.length ≤ fuel) :
    (pieces fuel argIndex text).flatMap source = text := by
  fun_induction pieces fuel argIndex text with
  | case1 fuel argIndex rest ih | case2 _ _ _ rest _ _ _ _ ih | case6 _ _ _ rest _ _ _ ih =>
    rw [flatMap_cons, ih (Nat.le_of_succ_le_succ enough)]
    rfl
  | case3 fuel argIndex ch rest _ _ number _ index ih =>
    have short := (length_drop_number rest).trans (Nat.le_of_succ_le_succ enough)
    rw [flatMap_cons, ih short, source, cons_append]
    exact congrArg (ch :: ·) (takeWhile_append_drop rest)
  | case4 fuel argIndex ch rest _ _ _ written following scanned ih =>
    have short := (length_following scanned).trans (Nat.le_of_succ_le_succ enough)
    rw [flatMap_cons, ih short]
    exact congrArg (ch :: ·) (scanQuoted_copies ch rest scanned).symm
  | case5 => simp [source]
  | case7 fuel argIndex text ends =>
    cases text with
    | nil => rfl
    | cons ch rest => exact (ends (fuel - 1) ch rest (by rw [length_cons] at enough; omega) rfl).elim

theorem allText_cons (args : List GoValue) (piece : Piece) (ps : List Piece) :
    allText args (piece :: ps) = piece.text args ++ allText args ps := flatMap_cons

theorem keptText_cons (args : List GoValue) (piece : Piece) (ps : List Piece) :
    keptText args (piece :: ps) =
      (if piece.isBare then [] else piece.text args) ++ keptText args ps := by
  rw [keptText, filter_cons]
  cases piece.isBare with
  | true => rfl
  | false => exact allText_cons args piece _

theorem keptText_eq_nil (args : List GoValue) (ps : List Piece) :
    keptText args ps = [] ↔ ∀ piece ∈ ps, piece.Silent args := by
  induction ps with
  | nil => simp [keptText, allText]
  | cons piece ps ih =>
    rw [keptText_cons, append_eq_nil_iff, ih, forall_mem_cons]
    refine and_congr_left' ?_
    cases bare : piece.isBare with
    | true | false => simp [Silent, bare]

/-- What the loop has written at its end: the pieces but the bare signs, and something more only if
a quote is not closed. -/
def Written (args : List GoValue) (ps : List Piece) (out result : Str) : Prop :=
  ∃ extra, result = out ++ keptText args ps ++ extra ∧
    ((∀ ch rest i, unclosed ch rest i ∉ ps) → extra = []) ∧
    ∀ ch rest i, unclosed ch rest i ∈ ps →
      (extra = [] ↔ ∀ piece ∈ piecesOf i rest, piece.Silent args)

theorem Written.cons {piece : Piece}
    (isText : (if piece.isBare then [] else piece.text args) = text)
    (closed : ∀ ch rest i, piece ≠ .unclosed ch rest i)
    (written : Written args ps (out ++ text) result) : Written args (piece :: ps) out result := by
  obtain ⟨extra, isResult, none, some⟩ := written
  refine ⟨extra, ?_, ?_, ?_⟩
  · rw [isResult, keptText_cons, isText, append_assoc out]
  · intro absent
    exact none fun ch rest i mem => absent ch rest i (mem_cons_of_mem _ mem)
  · intro ch rest i mem
    rcases mem_cons.mp mem with same | later
    · exact absurd same.symm (closed ch rest i)
    · exact some ch rest i later

/-- After a quote that is not closed everything is read once more. -/
theorem Written.unclosed
    (written : Written args (piecesOf argIndex rest) (out ++ ch :: rest) result) :
    Written args [.unclosed ch rest argIndex] out result := by
  obtain ⟨extra, isResult, none, _⟩ := written
  refine ⟨keptText args (piecesOf argIndex rest) ++ extra, ?_, ?_, ?_⟩
  · have own : keptText args [.unclosed ch rest argIndex] = ch :: rest := by
      simp [keptText, allText, isBare, text, source]
    rw [isResult, own, ← append_assoc]
  · intro absent
    exact absurd (mem_singleton_self _) (absent ch rest argIndex)
  · intro other part i mem
    cases mem_singleton.mp mem
    rw [append_eq_nil_iff, keptText_eq_nil]
    refine and_iff_left_of_imp fun silent => none ?_
    intro other part i inside
    rcases silent _ inside with bare | empty
    · cases bare
    · cases empty

theorem Written.nil (args : List GoValue) (out : Str) : Written args [] out out := by
  refine ⟨[], by simp [keptText, allText], fun _ => rfl, ?_⟩
  rintro ch rest i ⟨⟩

/-- A loop that succeeds has written what the pieces ask for. -/
theorem formatLoop_writes (fuel : Nat) (text : Str) (argIndex : Nat)
    (out result : Str) (enough : text.length ≤ fuel)
    (succeeds : formatLoop args fuel text argIndex out = .ok (.ok result)) :
    Written args (pieces fuel argIndex text) out result := by
  fun_induction formatLoop args fuel text argIndex out with
  | case1 | case2 | case5 | case6 | case7 | case8 | case10 | case13 => cases succeeds
  | case3 fuel rest argIndex out arg found text rendered ih =>
    rw [pieces, if_pos rfl]
    refine .cons ?_ (by simp) (ih (Nat.le_of_succ_le_succ enough) succeeds)
    simp [Piece.isBare, Piece.text, argText, found, rendered]
  | case4 fuel ch rest argIndex out notMark isSign number none ih =>
    rw [pieces, if_neg notMark, if_pos isSign]
    rw [if_pos none]
    have written := ih (Nat.le_of_succ_le_succ enough) succeeds
    rw [← append_nil out] at written
    exact .cons rfl (by simp) written
  | case9 fuel ch rest argIndex out notMark isSign number digits index isNumber arg found text
      rendered ih =>
    rw [pieces, if_neg notMark, if_pos isSign]
    rw [if_neg digits, isNumber]
    have short := (length_drop_number rest).trans (Nat.le_of_succ_le_succ enough)
    refine .cons ?_ (by simp) (ih short succeeds)
    simp [Piece.isBare, Piece.text, argText, found, rendered]
  | case11 fuel ch rest argIndex out notMark notSign isQuote written following scanned ih =>
    have copied := scanQuoted_copies ch rest scanned
    have short := Nat.le_of_succ_le_succ enough
    rw [pieces, if_neg notMark, if_neg notSign, if_pos isQuote, scanned]
    cases following with
    | none =>
      have again := ih short succeeds
      rw [Option.getD_none, append_nil] at copied
      rw [Option.getD_none, pieces_eq_piecesOf short, ← copied, append_assoc] at again
      exact .unclosed again
    | some following =>
      have behind := ih ((length_following scanned).trans short) succeeds
      rw [append_assoc] at behind
      exact .cons rfl (by simp) behind
  | case12 fuel ch rest argIndex out notMark notSign notQuote ih =>
    rw [pieces, if_neg notMark, if_neg notSign, if_neg notQuote]
    exact .cons rfl (by simp) (ih (Nat.le_of_succ_le_succ enough) succeeds)
  | case14 fuel text argIndex out _ ends =>
    cases succeeds
    rw [pieces_end ends]
    exact .nil args _

theorem length_allText (args : List GoValue) (ps : List Piece) :
    (allText args ps).length = (keptText args ps).length + ps.countP isBare := by
  induction ps with
  | nil => rfl
  | cons piece ps ih =>
    rw [allText_cons, keptText_cons, length_append, length_append, ih, countP_cons]
    cases piece with
    | bare ch => simp [isBare, text, source]; omega
    | _ => simp [isBare]; omega

theorem count_allText (args : List GoValue) (b : UInt8) (ps : List Piece)
    (others : ∀ ch, bare ch ∈ ps → ch ≠ b) :
    (allText args ps).count b = (keptText args ps).count b := by
  induction ps with
  | nil => rfl
  | cons piece ps ih =>
    have rest := ih fun ch mem => others ch (mem_cons_of_mem _ mem)
    rw [allText_cons, keptText_cons, count_append, count_append, rest]
    cases piece with
    | bare ch =>
      have differs := others ch (mem_cons_self ..)
      simp [isBare, text, source, differs]
    | _ => rfl

theorem keptText_eq_allText
    (none : ∀ ch, bare ch ∉ ps) : keptText args ps = allText args ps := by
  rw [keptText, filter_eq_self.mpr]
  intro piece mem
  cases piece with
  | bare ch => exact absurd mem (none ch)
  | _ => rfl

theorem countP_isBare : ps.countP isBare = 0 ↔ ∀ ch, bare ch ∉ ps := by
  rw [countP_eq_zero]
  constructor
  · intro none ch mem
    exact none _ mem rfl
  · intro none piece mem bare
    cases piece with
    | bare ch => exact none ch mem
    | _ => cases bare

/-- A text behind which something without the quote is added has its last quote elsewhere. -/
theorem nothing_added {q : UInt8} {front other extra : Str}
    (same : front ++ q :: rest = other ++ q :: rest ++ extra) (absent : q ∉ extra) :
    extra = [] := by
  by_contra added
  have lengths := congrArg length same
  simp only [length_append, length_cons] at lengths
  obtain ⟨k, behind⟩ : ∃ k, front.length = other.length + (k + 1) := by
    have positive := length_pos_iff.mpr added
    exact ⟨extra.length - 1, by omega⟩
  -- Behind `front` there is a quote less on the right.
  have counts := congrArg (fun text => (text.drop front.length).count q) same
  rw [drop_left, behind, append_assoc, drop_length_add_append, cons_append, drop_succ_cons,
    count_cons_self] at counts
  have fewer := (drop_sublist k (rest ++ extra)).count_le q
  rw [count_append, count_eq_zero.mpr absent] at fewer
  omega

/-- The signs that are left out are no quotes, and only the last piece is not closed. -/
def Shaped (ps : List Piece) : Prop :=
  (∀ ch, bare ch ∈ ps → ch = 58 ∨ ch = 36) ∧ ∀ q rest i, unclosed q rest i ∈ ps →
    (q = quote ∨ q = doubleQuote ∨ q = backquote) ∧ ∃ front, ps = front ++ [.unclosed q rest i]

theorem Shaped.cons {piece : Piece} (bare : ∀ b, piece = .bare b → b = 58 ∨ b = 36)
    (closed : ∀ q rest i, piece ≠ .unclosed q rest i) (shaped : Shaped ps) :
    Shaped (piece :: ps) := by
  obtain ⟨bares, last⟩ := shaped
  constructor
  · intro b mem
    rcases mem_cons.mp mem with same | later
    · exact bare b same.symm
    · exact bares b later
  · intro q rest i mem
    rcases mem_cons.mp mem with same | later
    · exact absurd same.symm (closed q rest i)
    · obtain ⟨isQuote, front, shape⟩ := last q rest i later
      exact ⟨isQuote, piece :: front, by rw [shape]; rfl⟩

theorem pieces_shape (fuel argIndex : Nat) (text : Str) : Shaped (pieces fuel argIndex text) := by
  fun_induction pieces fuel argIndex text with
  | case1 _ _ _ ih | case3 _ _ _ _ _ _ _ _ _ ih | case4 _ _ _ _ _ _ _ _ _ _ ih
  | case6 _ _ _ _ _ _ _ ih => exact .cons (by simp) (by simp) ih
  | case2 _ _ _ _ _ isSign _ _ ih => exact .cons (by simpa using isSign) (by simp) ih
  | case5 _ _ _ _ _ _ isQuote =>
    refine ⟨by simp, ?_⟩
    intro q r j mem
    cases mem_singleton.mp mem
    exact ⟨isQuote, [], rfl⟩
  | case7 => simp [Shaped]

/-- If `format` succeeds, the query consists of its pieces, and the output has each of them, the
placeholders replaced, exactly if none is a bare sign and nothing is read twice. -/
theorem format_copies_iff (query : Str) (args : List GoValue) (out : Str)
    (nonempty : args ≠ []) (succeeds : format query args = .ok (.ok out)) :
    (piecesOf 0 query).flatMap source = query ∧
      (out = allText args (piecesOf 0 query) ↔ Copied args query) := by
  refine ⟨source_pieces _ _ _ (Nat.le_refl _), ?_⟩
  have loops : formatLoop args query.length query 0 [] = .ok (.ok out) := by
    rwa [format, if_neg (by simpa using nonempty)] at succeeds
  have written : Written args (piecesOf 0 query) [] out :=
    formatLoop_writes _ _ _ _ _ (Nat.le_refl _) loops
  obtain ⟨extra, rfl, none, some⟩ := written
  obtain ⟨signs, last⟩ := pieces_shape query.length 0 query
  have lengths := length_allText args (piecesOf 0 query)
  have unextended (each : ∀ q rest i, unclosed q rest i ∈ piecesOf 0 query → extra = []) :
      extra = [] := by
    by_cases closed : ∀ ch rest i, unclosed ch rest i ∉ piecesOf 0 query
    · exact none closed
    · push Not at closed
      obtain ⟨q, rest, i, mem⟩ := closed
      exact each q rest i mem
  rw [nil_append]
  constructor
  · intro same
    -- What was added at the end holds no quote, so that nothing was added.
    have nothing : extra = [] := by
      refine unextended fun q rest i mem => ?_
      obtain ⟨isQuote, front, shape⟩ := last q rest i mem
      have counts := count_allText args q (piecesOf 0 query) (by
        intro ch bare
        rcases signs ch bare with rfl | rfl <;> rcases isQuote with rfl | rfl | rfl <;> decide)
      rw [← same, count_append] at counts
      have absent : q ∉ extra := count_eq_zero.mp (by omega)
      rw [piecesOf, shape] at same
      have all : allText args (front ++ [.unclosed q rest i]) =
          allText args front ++ q :: rest := by
        simp [allText, Piece.text, source]
      have kept : keptText args (front ++ [.unclosed q rest i]) =
          keptText args front ++ q :: rest := by
        simp [keptText, allText, Piece.isBare, Piece.text, source]
      rw [all, kept] at same
      exact nothing_added same.symm absent
    refine ⟨?_, fun ch rest i mem => (some ch rest i mem).mp nothing⟩
    rw [nothing, append_nil] at same
    rw [same] at lengths
    exact countP_isBare.mp (by omega)
  · rintro ⟨bares, silent⟩
    rw [keptText_eq_allText bares]
    have nothing : extra = [] :=
      unextended fun q rest i mem => (some q rest i mem).mpr (silent q rest i mem)
    rw [nothing, append_nil]

/-- A query with a numbered placeholder and a colon in quotes. -/
theorem format_copies_iff_quoted :
    bytes "7=':'" = allText [.int 7] (piecesOf 0 (bytes "$1=':'")) := by
  have formatted : format (bytes "$1=':'") [.int 7] =
      .ok (.ok (bytes "7=':'")) := by decide +kernel
  have split : piecesOf 0 (bytes "$1=':'") =
      [.mark (bytes "$1") 0, .plain 61, .quoted (bytes "':'")] := by
    decide +kernel
  refine (format_copies_iff _ _ _ (by simp) formatted).2.mpr ⟨?_, ?_⟩
  · intro ch
    simp [split]
  · intro ch rest i mem
    simp [split] at mem

/-- The cast of PostgreSQL loses its colons, and what follows a quote that is not closed is written
twice. -/
theorem format_loses_colons :
    (∃ out, format (bytes "a::int=?") [.int 7] = .ok (.ok out) ∧
      out = bytes "aint=7" ∧
      allText [.int 7] (piecesOf 0 (bytes "a::int=?")) = bytes "a::int=7") ∧
    ∃ out, format (bytes "a=? 'b") [.int 7] = .ok (.ok out) ∧
      out = bytes "a=7 'bb" ∧
      allText [.int 7] (piecesOf 0 (bytes "a=? 'b")) = bytes "a=7 'b" := by
  refine ⟨⟨_, ?_, rfl, ?_⟩, _, ?_, rfl, ?_⟩
  · decide +kernel
  · decide +kernel
  · decide +kernel
  · decide +kernel

end FastGoZero.Sqlx
