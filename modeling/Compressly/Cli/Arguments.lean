/-
# `Compressly.Cli.Arguments` — the command line of `compressor`

`main` pulls the flags out of its arguments; what remains is positional.  A command
line is a list of `Word`s written one after the other, but for a value that is missing
at its end.  So the flags can stand anywhere, the last of a kind counts, and the order
of flags of different kinds does not (`parseArgs_iff`).

`strtoull` and `atoi` are modelled as the C standard has them; an `atoi` out of range is
a `fault`.
-/
import Compressly.Codec.Basic

namespace Compressly.Cli

open Parse

/-! ## Numbers -/

/-- `isspace`, in the C locale. -/
def isSpace (c : Char) : Bool :=
  c = ' ' || c = '\t' || c = '\n' || c = '\x0b' || c = '\x0c' || c = '\r'

/-- An optional sign: whether it is a minus, and what follows. -/
def sign : List Char → Bool × List Char
  | '-' :: text => (true, text)
  | '+' :: text => (false, text)
  | text => (false, text)

def digitsValue (digits : List Char) : Nat :=
  digits.foldl (fun n c => 10 * n + (c.toNat - '0'.toNat)) 0

/-- `strtoull(text, &end, 10)`: the value, and the text from `end` on. -/
def strtoull (text : List Char) : UInt64 × List Char :=
  let (negative, digits) := sign (text.dropWhile isSpace)
  let value := digitsValue (digits.takeWhile Char.isDigit)
  if digits.takeWhile Char.isDigit = [] then (0, text)
  else
    (if 2 ^ 64 ≤ value then UInt64.ofNat (2 ^ 64 - 1)
      else if negative then 0 - UInt64.ofNat value else UInt64.ofNat value,
      digits.dropWhile Char.isDigit)

/-- `std::atoi`. -/
def atoi (text : List Char) : Result Int :=
  let (negative, digits) := sign (text.dropWhile isSpace)
  let value : Int := digitsValue (digits.takeWhile Char.isDigit)
  let signed := if negative then -value else value
  if signed < -2 ^ 31 ∨ 2 ^ 31 ≤ signed then throw .fault else pure signed

/-- The scale of a suffix. -/
def scaleOf (c : Char) : Option UInt64 :=
  match c with
  | 'k' | 'K' => some 1024
  | 'm' | 'M' => some (1024 * 1024)
  | 'g' | 'G' => some (1024 * 1024 * 1024)
  | _ => none

def parseSize (text : String) : Result UInt64 :=
  if text.toList = [] then throw (.runtimeError "empty size")
  else
    let (value, rest) := strtoull text.toList
    match rest with
    | [] => pure value
    | c :: _ =>
        match scaleOf c with
        | some scale => pure (value * scale)
        | none => throw (.runtimeError ("unrecognised size suffix in " ++ text))

/-! ## The loop over the arguments -/

/-- What `main` has made of the arguments so far. -/
structure Parsed where
  options : Options := {}
  streaming : Bool := false
  args : List String := []

def Parsed.setAlgorithm (p : Parsed) (algorithm : Algorithm) : Parsed :=
  { p with options := { p.options with algorithm := algorithm } }

def Parsed.setBlockSize (p : Parsed) (size : UInt64) : Parsed :=
  { p with options := { p.options with blockSize := size.toNat, blockSize_lt := size.toNat_lt } }

def Parsed.setThreads (p : Parsed) (threads : Int) : Parsed :=
  { p with options := { p.options with threads := threads } }

def needsValue (flag : String) : Error := .runtimeError (flag ++ " needs a value")

/-- The arguments after the name of the program. -/
def parseArgs (p : Parsed) : List String → Result Parsed
  | [] => pure p
  | arg :: rest =>
      if arg = "--lz77" then parseArgs (p.setAlgorithm .lz77) rest
      else if arg = "--deflate" then parseArgs (p.setAlgorithm .deflate) rest
      else if arg = "--huffman" then parseArgs (p.setAlgorithm .huffman) rest
      else if arg = "--block-size" then
        match rest with
        | [] => throw (needsValue arg)
        | value :: rest => do
            let size ← parseSize value
            parseArgs (p.setBlockSize size) rest
      else if arg = "--threads" then
        match rest with
        | [] => throw (needsValue arg)
        | value :: rest => do
            let threads ← atoi value.toList
            parseArgs (p.setThreads threads) rest
      else if arg = "--stream" then parseArgs { p with streaming := true } rest
      else parseArgs { p with args := p.args ++ [arg] } rest

/-! ## Command lines -/

inductive Word where
  | algorithm (algorithm : Algorithm)
  | blockSize (value : String)
  | threads (value : String)
  | stream
  | positional (arg : String)
deriving DecidableEq

def flagOf : Algorithm → String
  | .lz77 => "--lz77"
  | .deflate => "--deflate"
  | .huffman => "--huffman"

/-- How a word is written. -/
def Word.written : Word → List String
  | .algorithm a => [flagOf a]
  | .blockSize value => ["--block-size", value]
  | .threads value => ["--threads", value]
  | .stream => ["--stream"]
  | .positional arg => [arg]

def flags : List String :=
  ["--lz77", "--deflate", "--huffman", "--block-size", "--threads", "--stream"]

/-- A positional word is not a flag. -/
def Word.Proper : Word → Prop
  | .positional arg => arg ∉ flags
  | .algorithm _ | .blockSize _ | .threads _ | .stream => True

/-- What a word does. -/
def Parsed.take (p : Parsed) : Word → Result Parsed
  | .algorithm a => pure (p.setAlgorithm a)
  | .blockSize value => p.setBlockSize <$> parseSize value
  | .threads value => p.setThreads <$> atoi value.toList
  | .stream => pure { p with streaming := true }
  | .positional arg => pure { p with args := p.args ++ [arg] }

theorem parseArgs_positional (p : Parsed) {arg : String} (h : arg ∉ flags) (rest : List String) :
    parseArgs p (arg :: rest) = parseArgs { p with args := p.args ++ [arg] } rest := by
  simp only [flags, List.mem_cons, List.not_mem_nil, or_false, not_or] at h
  obtain ⟨h₁, h₂, h₃, h₄, h₅, h₆⟩ := h
  rw [parseArgs.eq_def]
  dsimp only
  rw [if_neg h₁, if_neg h₂, if_neg h₃, if_neg h₄, if_neg h₅, if_neg h₆]

theorem parseArgs_algorithm (p : Parsed) (a : Algorithm) (rest : List String) :
    parseArgs p (flagOf a :: rest) = parseArgs (p.setAlgorithm a) rest := by
  rw [parseArgs.eq_def]
  dsimp only
  cases a with
  | lz77 => rw [flagOf, if_pos rfl]
  | deflate => rw [flagOf, if_neg (by decide), if_pos rfl]
  | huffman => rw [flagOf, if_neg (by decide), if_neg (by decide), if_pos rfl]

theorem parseArgs_stream (p : Parsed) (rest : List String) :
    parseArgs p ("--stream" :: rest) = parseArgs { p with streaming := true } rest := by
  rw [parseArgs.eq_def]
  dsimp only
  rw [if_neg (by decide), if_neg (by decide), if_neg (by decide), if_neg (by decide),
    if_neg (by decide), if_pos rfl]

theorem parseArgs_blockSize (p : Parsed) (value : String) (rest : List String) :
    parseArgs p ("--block-size" :: value :: rest)
      = parseSize value >>= fun size => parseArgs (p.setBlockSize size) rest := rfl

theorem parseArgs_threads (p : Parsed) (value : String) (rest : List String) :
    parseArgs p ("--threads" :: value :: rest)
      = atoi value.toList >>= fun threads => parseArgs (p.setThreads threads) rest := rfl

/-- The loop takes one word after the other. -/
theorem parseArgs_word (p : Parsed) {w : Word} (hw : w.Proper) (rest : List String) :
    parseArgs p (w.written ++ rest) = p.take w >>= fun p' => parseArgs p' rest := by
  cases w with
  | algorithm a => exact parseArgs_algorithm p a rest
  | blockSize value =>
      change parseArgs p ("--block-size" :: value :: rest) = _
      rw [parseArgs_blockSize, Parsed.take]
      cases parseSize value <;> rfl
  | threads value =>
      change parseArgs p ("--threads" :: value :: rest) = _
      rw [parseArgs_threads, Parsed.take]
      cases atoi value.toList <;> rfl
  | stream => exact parseArgs_stream p rest
  | positional arg => exact parseArgs_positional p hw rest

theorem parseArgs_words (p : Parsed) {words : List Word} (hwords : ∀ w ∈ words, w.Proper)
    (rest : List String) :
    parseArgs p (words.flatMap Word.written ++ rest)
      = words.foldlM Parsed.take p >>= fun p' => parseArgs p' rest := by
  induction words generalizing p with
  | nil => rfl
  | cons w words ih =>
      rw [List.flatMap_cons, List.append_assoc, parseArgs_word p (hwords w List.mem_cons_self),
        List.foldlM_cons, bind_assoc]
      exact bind_congr fun p' => ih p' fun w' hw' => hwords w' (List.mem_cons_of_mem _ hw')

/-- A value is missing. -/
def Dangling (flag : String) : Prop := flag = "--block-size" ∨ flag = "--threads"

theorem parseArgs_dangling (p : Parsed) {flag : String} (h : Dangling flag) :
    parseArgs p [flag] = .error (needsValue flag) := by
  rcases h with rfl | rfl <;> rfl

/-- Every command line is made of words. -/
theorem exists_words (argv : List String) :
    ∃ words : List Word, (∀ w ∈ words, w.Proper) ∧
      (argv = words.flatMap Word.written ∨
        ∃ flag, Dangling flag ∧ argv = words.flatMap Word.written ++ [flag]) := by
  induction hn : argv.length using Nat.strong_induction_on generalizing argv with
  | h n ih =>
      -- One word, and what the induction hypothesis says of the rest.
      have hstep : ∀ (w : Word) (rest : List String), w.Proper → rest.length < n →
          argv = w.written ++ rest → ∃ words : List Word, (∀ w ∈ words, w.Proper) ∧
            (argv = words.flatMap Word.written ∨
              ∃ flag, Dangling flag ∧ argv = words.flatMap Word.written ++ [flag]) := by
        intro w rest hw hlt hargv
        obtain ⟨words, hwords, hrest⟩ := ih rest.length hlt rest rfl
        refine ⟨w :: words, ?_, ?_⟩
        · intro w' hw'
          rcases List.mem_cons.mp hw' with rfl | hw'
          · exact hw
          · exact hwords w' hw'
        · rw [List.flatMap_cons, hargv]
          rcases hrest with rfl | ⟨flag, hflag, rfl⟩
          · exact Or.inl rfl
          · exact Or.inr ⟨flag, hflag, (List.append_assoc ..).symm⟩
      match argv, hn with
      | [], _ => exact ⟨[], by simp, Or.inl rfl⟩
      | arg :: rest, hn =>
          have hlt : rest.length < n := by
            rw [← hn]
            exact Nat.lt_succ_self _
          by_cases hflag : arg ∈ flags
          · simp only [flags, List.mem_cons, List.not_mem_nil, or_false] at hflag
            rcases hflag with rfl | rfl | rfl | rfl | rfl | rfl
            · exact hstep (.algorithm .lz77) rest trivial hlt rfl
            · exact hstep (.algorithm .deflate) rest trivial hlt rfl
            · exact hstep (.algorithm .huffman) rest trivial hlt rfl
            · cases rest with
              | nil => exact ⟨[], by simp, Or.inr ⟨_, Or.inl rfl, rfl⟩⟩
              | cons value rest =>
                  exact hstep (.blockSize value) rest trivial (Nat.lt_of_succ_lt hlt) rfl
            · cases rest with
              | nil => exact ⟨[], by simp, Or.inr ⟨_, Or.inr rfl, rfl⟩⟩
              | cons value rest =>
                  exact hstep (.threads value) rest trivial (Nat.lt_of_succ_lt hlt) rfl
            · exact hstep .stream rest trivial hlt rfl
          · exact hstep (.positional arg) rest hflag hlt rfl

/-! ## What the words come to -/

def Word.algorithm? : Word → Option Algorithm
  | .algorithm a => some a
  | .blockSize _ | .threads _ | .stream | .positional _ => none

def Word.size? : Word → Option Nat
  | .blockSize value => (parseSize value).toOption.map UInt64.toNat
  | .algorithm _ | .threads _ | .stream | .positional _ => none

def Word.threads? : Word → Option Int
  | .threads value => (atoi value.toList).toOption
  | .algorithm _ | .blockSize _ | .stream | .positional _ => none

def Word.positional? : Word → Option String
  | .positional arg => some arg
  | .algorithm _ | .blockSize _ | .threads _ | .stream => none

/-- A value that can be read. -/
def Word.Valid : Word → Prop
  | .blockSize value => ∃ size, parseSize value = .ok size
  | .threads value => ∃ threads, atoi value.toList = .ok threads
  | .algorithm _ | .stream | .positional _ => True

theorem getLastD_lt {l : List Nat} {d b : Nat} (hd : d < b) (hl : ∀ n ∈ l, n < b) :
    l.getLastD d < b := by
  induction l generalizing d with
  | nil => exact hd
  | cons n l ih =>
      rw [List.getLastD_cons]
      exact ih (hl n List.mem_cons_self) fun m hm => hl m (List.mem_cons_of_mem _ hm)

theorem size?_lt {w : Word} {n : Nat} (h : w.size? = some n) : n < 2 ^ 64 := by
  cases w with
  | blockSize value =>
      obtain ⟨size, -, rfl⟩ := Option.map_eq_some_iff.mp h
      exact size.toNat_lt
  | algorithm a => cases h
  | threads value => cases h
  | stream => cases h
  | positional arg => cases h

/-- The last flag of each kind, and every positional argument in its place. -/
def Parsed.after (p : Parsed) (words : List Word) : Parsed where
  options :=
    { algorithm := (words.filterMap Word.algorithm?).getLastD p.options.algorithm
      lz77 := p.options.lz77
      blockSize := (words.filterMap Word.size?).getLastD p.options.blockSize
      threads := (words.filterMap Word.threads?).getLastD p.options.threads
      blockSize_lt := getLastD_lt p.options.blockSize_lt fun n hn => by
        obtain ⟨w, -, hw⟩ := List.mem_filterMap.mp hn
        exact size?_lt hw }
  streaming := p.streaming || decide (.stream ∈ words)
  args := p.args ++ words.filterMap Word.positional?

theorem take_after {p p' : Parsed} {w : Word} (h : p.take w = .ok p') (words : List Word) :
    w.Valid ∧ p'.after words = p.after (w :: words) := by
  cases w with
  | algorithm a =>
      cases h
      exact ⟨trivial, by simp only [Parsed.after, Parsed.setAlgorithm, List.filterMap_cons,
        Word.algorithm?, Word.size?, Word.threads?, Word.positional?, List.getLastD_cons,
        List.mem_cons, reduceCtorEq, false_or]⟩
  | blockSize value =>
      obtain ⟨size, hsize, rfl⟩ := map_eq_ok.mp h
      have hsome : (Word.blockSize value).size? = some size.toNat := by
        rw [Word.size?, hsize]
        rfl
      exact ⟨⟨size, hsize⟩, by simp only [Parsed.after, Parsed.setBlockSize, List.filterMap_cons,
        Word.algorithm?, hsome, Word.threads?, Word.positional?, List.getLastD_cons,
        List.mem_cons, reduceCtorEq, false_or]⟩
  | threads value =>
      obtain ⟨threads, hthreads, rfl⟩ := map_eq_ok.mp h
      have hsome : (Word.threads value).threads? = some threads := by
        rw [Word.threads?, hthreads]
        rfl
      exact ⟨⟨threads, hthreads⟩, by simp only [Parsed.after, Parsed.setThreads,
        List.filterMap_cons, Word.algorithm?, Word.size?, hsome, Word.positional?,
        List.getLastD_cons, List.mem_cons, reduceCtorEq, false_or]⟩
  | stream =>
      cases h
      exact ⟨trivial, by simp only [Parsed.after, List.filterMap_cons, Word.algorithm?, Word.size?,
        Word.threads?, Word.positional?, List.mem_cons, true_or, decide_true, Bool.true_or,
        Bool.or_true]⟩
  | positional arg =>
      cases h
      exact ⟨trivial, by simp only [Parsed.after, List.filterMap_cons, Word.algorithm?, Word.size?,
        Word.threads?, Word.positional?, List.mem_cons, reduceCtorEq, false_or, List.append_assoc,
        List.singleton_append]⟩

theorem take_of_valid (p : Parsed) {w : Word} (h : w.Valid) : ∃ p', p.take w = .ok p' := by
  cases w with
  | blockSize value =>
      obtain ⟨size, hsize⟩ := h
      exact ⟨p.setBlockSize size, by rw [Parsed.take, hsize]; rfl⟩
  | threads value =>
      obtain ⟨threads, hthreads⟩ := h
      exact ⟨p.setThreads threads, by rw [Parsed.take, hthreads]; rfl⟩
  | algorithm a => exact ⟨_, rfl⟩
  | stream => exact ⟨_, rfl⟩
  | positional arg => exact ⟨_, rfl⟩

theorem after_nil (p : Parsed) : p.after [] = p := by
  simp [Parsed.after]

theorem foldlM_take {p p' : Parsed} {words : List Word} :
    words.foldlM Parsed.take p = .ok p' ↔ (∀ w ∈ words, w.Valid) ∧ p' = p.after words := by
  induction words generalizing p with
  | nil =>
      rw [after_nil]
      exact ⟨fun h => ⟨by simp, (Except.ok.inj h).symm⟩, fun h => by rw [h.2]; rfl⟩
  | cons w words ih =>
      rw [List.foldlM_cons, bind_eq_ok]
      constructor
      · rintro ⟨p₁, hfirst, hrest⟩
        obtain ⟨hvalid, hp'⟩ := ih.mp hrest
        obtain ⟨hw, hafter⟩ := take_after hfirst words
        refine ⟨fun w' hw' => ?_, hp'.trans hafter⟩
        rcases List.mem_cons.mp hw' with rfl | hw'
        · exact hw
        · exact hvalid w' hw'
      · rintro ⟨hvalid, hp'⟩
        obtain ⟨p₁, hfirst⟩ := take_of_valid p (hvalid w List.mem_cons_self)
        refine ⟨p₁, hfirst, ih.mpr ⟨fun w' hw' => hvalid w' (List.mem_cons_of_mem _ hw'), ?_⟩⟩
        rw [hp', (take_after hfirst words).2]

theorem parseArgs_proper {words : List Word} (hwords : ∀ w ∈ words, w.Proper) :
    parseArgs {} (words.flatMap Word.written) = words.foldlM Parsed.take {} := by
  have h := parseArgs_words {} hwords []
  rw [List.append_nil] at h
  rw [h]
  exact bind_pure _

theorem words_of_parseArgs {argv : List String} {p : Parsed} (h : parseArgs {} argv = .ok p) :
    ∃ words : List Word, (∀ w ∈ words, w.Proper ∧ w.Valid) ∧
      argv = words.flatMap Word.written ∧ p = ({} : Parsed).after words := by
  obtain ⟨words, hwords, rfl | ⟨flag, hflag, rfl⟩⟩ := exists_words argv
  · rw [parseArgs_proper hwords] at h
    obtain ⟨hvalid, hp⟩ := foldlM_take.mp h
    exact ⟨words, fun w hw => ⟨hwords w hw, hvalid w hw⟩, rfl, hp⟩
  · rw [parseArgs_words {} hwords] at h
    obtain ⟨p', -, h⟩ := bind_eq_ok.mp h
    rw [parseArgs_dangling p' hflag] at h
    cases h

/-- **Flags can appear anywhere.**  The arguments are accepted exactly where they are words with
values that can be read; and what they come to is the last flag of each kind, or its default,
whether there is a `--stream`, and the positional words in order. -/
theorem parseArgs_iff (argv : List String) (p : Parsed) :
    parseArgs {} argv = .ok p ↔
      ∃ words : List Word, (∀ w ∈ words, w.Proper ∧ w.Valid) ∧
        argv = words.flatMap Word.written ∧ p = ({} : Parsed).after words := by
  refine ⟨words_of_parseArgs, ?_⟩
  rintro ⟨words, hwords, rfl, rfl⟩
  rw [parseArgs_proper fun w hw => (hwords w hw).1]
  exact foldlM_take.mpr ⟨fun w hw => (hwords w hw).2, rfl⟩

end Compressly.Cli
