/-
# `Compressly.Cli.Outcome` — what a run of `compressor` leaves

    cli_lossless          on a system that does what it is asked, `c` and then `d` give the
                          file back, for any flags on either line
    cli_leaves            on any system, a run changes its output at most, and what it
                          leaves there is never mistaken for something else
    cli_stream_destroys   `--stream` onto the input itself destroys it

Two paths may name one file; what matters is the file (`System.resolve`).
-/
import Compressly.Cli.Run
import Compressly.Codec.ShortStream
import Compressly.Codec.Trailing

namespace Compressly.Cli

open Output Parse LZ77 Chunks ThreadPool

/-! ## Options and containers -/

/-- No flag changes the parameters of LZ77, and every algorithm accepts the default ones. -/
theorem accepts_of_parseArgs {argv : List String} {p : Parsed} (h : parseArgs {} argv = .ok p) :
    p.options.algorithm.Accepts p.options.lz77 := by
  obtain ⟨words, -, -, rfl⟩ := words_of_parseArgs h
  change Algorithm.Accepts (({} : Parsed).after words).options.algorithm {}
  cases (({} : Parsed).after words).options.algorithm with
  | huffman => decide
  | lz77 => decide
  | deflate => decide

/-- Part of a container is all of it, or is rejected. -/
theorem kept_cases {data c kept : List UInt8} (h : Tight decompress data c) (hkept : kept <+: c) :
    decompress kept = .ok data ∨ Unusable kept := by
  obtain ⟨s, hs⟩ := hkept
  by_cases hall : s = []
  · rw [hall, List.append_nil] at hs
    rw [hs]
    exact Or.inl h.decodes
  · exact Or.inr (unusable_of_error (h.truncated kept s hs.symm hall))

/-- With nothing to read there is a header at most, and an error. -/
theorem compressStream_nil (env : Environment) (options : Options) {totalSize : Nat}
    (h0 : 0 < totalSize) (hmax : totalSize ≤ maxSize) :
    (compressStream env [] totalSize options).written <+: header .blocked totalSize ∧
      ∃ e, (compressStream env [] totalSize options).result = .error e ∧ e ≠ .fault := by
  have hsize : totalSize < 2 ^ 64 := lt_of_le_of_lt hmax (by decide)
  have hpos := streamBlockSize_pos options
  have hbatch := batchSize_pos (resolveThreadCount env options.threads)
  have hexits : Exits (compressStream env [] totalSize options).result
      fun _ => totalSize ≤ ([] : List UInt8).length :=
    compressStream_exits env [] hsize fun hlt => add_le_of_lt hlt hmax
  refine ⟨?_, ?_⟩
  · rcases Nat.lt_or_ge (streamBlockSize options) totalSize with hblocks | hsingle
    · generalize hworkers : batchSize (resolveThreadCount env options.threads) = batch at hbatch
      have hcount : 0 < count (streamBlockSize options) totalSize := (lt_count hpos).mpr (by omega)
      have hfed : Fed batch 0 (bytesBefore totalSize (streamBlockSize options) 0)
          (firstSlots batch []) := ⟨List.length_replicate, by simp [bytesBefore, firstSlots]⟩
      have hrun : Exits (runBatch env options totalSize (streamBlockSize options) 0 0
          (min batch (count (streamBlockSize options) totalSize - 0)) (firstSlots batch [])
          (List.replicate batch {}) (header .blocked totalSize)) _ :=
        runBatch_exits hpos hsize env 0 (by omega) (Nat.min_le_left _ _) hfed
          List.length_replicate _
      have hwritten : (batchLoop env options totalSize (streamBlockSize options)
          (count (streamBlockSize options) totalSize) hbatch 0 0 (firstSlots batch [])
          (List.replicate batch {}) (header .blocked totalSize)).written
            = header .blocked totalSize := by
        rw [batchLoop, if_pos hcount]
        cases hbatch' : runBatch env options totalSize (streamBlockSize options) 0 0
            (min batch (count (streamBlockSize options) totalSize - 0)) (firstSlots batch [])
            (List.replicate batch {}) (header .blocked totalSize) with
        | error e => rfl
        | ok r =>
            rw [hbatch'] at hrun
            have hread := hrun.1.input
            have hhere : 0 < min batch (count (streamBlockSize options) totalSize - 0) := by omega
            have hmul := Nat.mul_pos hhere hpos
            unfold bytesBefore at hread
            rw [Nat.zero_add] at hread
            omega
      subst hworkers
      rw [compressStream_of_gt env [] hblocks, blockCountFor_eq (add_le_of_lt hblocks hmax), hwritten]
    · change (Ended.written (if totalSize ≤ streamBlockSize options then _ else _)) <+: _
      have hread : readExactly kEndedEarly totalSize [] = .error kEndedEarly := by
        unfold readExactly readFully
        rw [if_pos (by simpa using h0.ne)]
        rfl
      rw [if_pos hsingle, hread]
      exact List.nil_prefix
  · cases hresult : (compressStream env [] totalSize options).result with
    | ok u =>
        rw [hresult] at hexits
        exact absurd hexits (by simpa using h0.ne')
    | error e =>
        rw [hresult] at hexits
        exact ⟨e, rfl, hexits⟩

/-! ## The modes of a command line -/

section Modes
variable {sys : System} {argv : List String} {p : Parsed} {mode input output : String}
  {files : Files}

theorem main_compress (hp : parseArgs {} argv = .ok p) (hargs : p.args = [mode, input, output])
    (hmode : isCompress mode) :
    main sys argv files
      = (exitOf (thenSize sys output (compressFile sys p input output files)).1,
        (compressFile sys p input output files).2) := by
  unfold main
  rw [hp]
  dsimp only
  rw [runMode, hargs]
  dsimp only
  rw [if_pos hmode]
  rfl

theorem main_test (hp : parseArgs {} argv = .ok p) (hargs : p.args = [mode, input])
    (hmode : isTest mode) :
    main sys argv files = (exitOf (runTest sys input p.options files), files) := by
  unfold main
  rw [hp]
  dsimp only
  rw [runMode, hargs]
  dsimp only
  rw [if_pos hmode]

theorem not_isCompress (hmode : isDecompress mode) : ¬ isCompress mode := by
  rcases hmode with rfl | rfl <;> decide

theorem main_decompress (hp : parseArgs {} argv = .ok p) (hargs : p.args = [mode, input, output])
    (hmode : isDecompress mode) :
    main sys argv files
      = (exitOf (thenSize sys output (decompressFile sys p input output files)).1,
        (decompressFile sys p input output files).2) := by
  unfold main
  rw [hp]
  dsimp only
  rw [runMode, hargs]
  dsimp only
  rw [if_neg (not_isCompress hmode), if_pos hmode]
  rfl

end Modes

/-! ## On a system that works -/

/-- Every file can be opened and every thread created, no write fails, and what is written is
kept. -/
structure System.Works (sys : System) : Prop where
  spawn : ∀ i, sys.spawn.fails i = none
  readable : ∀ path, sys.readable path = true
  writable : ∀ path, sys.writable path = true
  good : sys.good = .ideal
  kept : ∀ bytes, sys.kept bytes = bytes

/-- The file `a` has a second path. -/
def plain : System where
  env := reversed
  spawn := ⟨fun _ => none, fun _ => false⟩
  resolve path := if path = "./a" then "a" else path
  readable _ := true
  writable _ := true
  good := .ideal
  kept := id
  kept_prefix _ := List.prefix_rfl

theorem plain_works : plain.Works where
  spawn _ := rfl
  readable _ := rfl
  writable _ := rfl
  good := rfl
  kept _ := rfl

/-- One file. -/
def oneFile (path : String) : Option (List UInt8) := if path = "a" then some [7, 7, 7] else none

section Works
variable {sys : System} {p : Parsed} {input output : String} {files : Files}
  {data : List UInt8}

theorem openRead_works (h : sys.Works) (files : Files) (path : String) :
    openRead sys files path = files (sys.resolve path) := if_pos (h.readable path)

theorem writeFile_works (h : sys.Works) (output : String) (data : List UInt8) (files : Files) :
    writeFile sys output data files
      = (.ok (), Function.update files (sys.resolve output) (some data)) := by
  have hgood : data = [] ∨ sys.good [] data = true := Or.inr (by rw [h.good]; rfl)
  rw [writeFile, if_pos (h.writable output), if_pos hgood, close, openWrite,
    if_pos (h.writable output), h.kept, Function.update_idem]
  rfl

/-- An input that is not the output is still there when it is read. -/
theorem withStreams_works (h : sys.Works) (hinput : files (sys.resolve input) = some data)
    (hne : sys.resolve input ≠ sys.resolve output) {body : List UInt8 → Writing UInt8 Stop Unit}
    {written : List UInt8} (hbody : outcome (body data) [] = (.ok (), written)) :
    withStreams sys input output body files
      = (.ok (), Function.update files (sys.resolve output) (some written)) := by
  have hopened : openWrite sys output files
      = Function.update files (sys.resolve output) (some []) := if_pos (h.writable output)
  have hread : (Function.update files (sys.resolve output) (some []) (sys.resolve input)).getD []
      = data := by
    rw [Function.update_of_ne hne, hinput]
    rfl
  unfold withStreams
  rw [openRead_works h, hinput]
  dsimp only
  rw [if_pos (h.writable output), hopened, hread, hbody]
  dsimp only
  rw [close, h.kept, Function.update_idem]

theorem compressFile_works (h : sys.Works) (hinput : files (sys.resolve input) = some data)
    (hlen : data.length < 2 ^ 32) (hok : p.options.algorithm.Accepts p.options.lz77)
    (hne : p.streaming = true → sys.resolve input ≠ sys.resolve output) :
    ∃ c, decompress c = .ok data ∧ compressFile sys p input output files
      = (.ok (), Function.update files (sys.resolve output) (some c)) := by
  unfold compressFile
  cases hstream : p.streaming with
  | true =>
      obtain ⟨c, hc, htight⟩ := compressStream_tight_of_lt sys.env (fun _ => hok) hlen
      refine ⟨c, htight.decodes, ?_⟩
      have hsize : fileSize sys files input = .ok data.length := by
        rw [fileSize, openRead_works h, hinput]
        rfl
      rw [if_pos rfl, hsize]
      dsimp only
      refine withStreams_works h hinput (hne hstream) ?_
      rcases @compressStreamOn_cases sys.spawn sys.good sys.env data data.length p.options with
        hsame | ⟨-, k, e, hfails, -⟩
      · rw [hsame, endingOf, h.good, compressStreamTo_ideal, hc]
        rfl
      · rw [h.spawn] at hfails
        cases hfails
  | false =>
      obtain ⟨c, hc, htight⟩ := compress_tight_of_lt sys.env (fun _ => hok) hlen
      refine ⟨c, htight.decodes, ?_⟩
      have hread : (readFile sys files input >>= fun data =>
          compressOn sys.spawn sys.env data p.options) = .ok c := by
        rw [readFile, openRead_works h, hinput]
        change compressOn sys.spawn sys.env data p.options = _
        rw [compressOn_of_none sys.spawn sys.env fun i _ => h.spawn i, hc]
        rfl
      rw [if_neg (by decide), hread]
      exact writeFile_works h output c files

theorem decompressFile_works {c : List UInt8} (h : sys.Works)
    (hinput : files (sys.resolve input) = some c) (hc : decompress c = .ok data)
    (hne : p.streaming = true → sys.resolve input ≠ sys.resolve output) :
    decompressFile sys p input output files
      = (.ok (), Function.update files (sys.resolve output) (some data)) := by
  unfold decompressFile
  cases hstream : p.streaming with
  | true =>
      rw [if_pos rfl]
      refine withStreams_works h hinput (hne hstream) ?_
      rw [outcome_rethrow_ofError, endingOf, h.good, decompressStreamTo_ideal,
        decompressStream_ok hc]
      rfl
  | false =>
      have hread : (readFile sys files input >>= fun data => .ofResult (decompress data))
          = Ending.ofResult (.ok data) := by
        rw [readFile, openRead_works h, hinput, ← hc]
        rfl
      rw [if_neg (by decide), hread]
      exact writeFile_works h output data files

theorem runTest_works (h : sys.Works) (hinput : files (sys.resolve input) = some data)
    (hlen : data.length < 2 ^ 32) (hok : p.options.algorithm.Accepts p.options.lz77) :
    runTest sys input p.options files = .ok 0 := by
  obtain ⟨c, hc, htight⟩ := compress_tight_of_lt sys.env (fun _ => hok) hlen
  have hread : readFile sys files input = .ok data := by
    rw [readFile, openRead_works h, hinput]
    rfl
  have hmethod := methodOf_eq (decompress_eq_ok htight.decodes).1
  have hcompress : compressOn sys.spawn sys.env data p.options = .ok c := by
    rw [compressOn_of_none sys.spawn sys.env fun i _ => h.spawn i, hc]
    rfl
  rw [runTest, hread]
  change (compressOn sys.spawn sys.env data p.options >>= fun compressed =>
    Ending.ofResult (decompress compressed) >>= fun restored =>
      Ending.ofResult (methodOf compressed) >>= fun _ => pure (if restored = data then 0 else 1)) = _
  rw [hcompress]
  change (Ending.ofResult (decompress c) >>= fun restored =>
    Ending.ofResult (methodOf c) >>= fun _ => pure (if restored = data then 0 else 1)) = _
  rw [htight.decodes, hmethod]
  exact congrArg Except.ok (if_pos rfl)

theorem thenSize_works (h : sys.Works) (written : List UInt8) :
    (thenSize sys output
      (.ok (), Function.update files (sys.resolve output) (some written))).1 = .ok 0 := by
  have hsize : fileSize sys (Function.update files (sys.resolve output) (some written)) output
      = .ok written.length := by
    rw [fileSize, openRead_works h, Function.update_self]
    rfl
  change (fileSize sys (Function.update files (sys.resolve output) (some written)) output
    >>= fun _ => pure 0) = _
  rw [hsize]
  rfl

end Works

/-- **`c` and then `d` give the file back**, whatever the flags, streaming or in memory, and each
returns 0; so does `t`.  Only a streaming run needs its two paths to name different files. -/
theorem cli_lossless {sys sys' : System} (h : sys.Works) (h' : sys'.Works)
    {argv argv' : List String} {p p' : Parsed} {mode mode' source archive target : String}
    (hp : parseArgs {} argv = .ok p) (hargs : p.args = [mode, source, archive])
    (hmode : isCompress mode) (hp' : parseArgs {} argv' = .ok p')
    (hargs' : p'.args = [mode', archive, target]) (hmode' : isDecompress mode') {files : Files}
    {data : List UInt8} (hsource : files (sys.resolve source) = some data)
    (hlen : data.length < 2 ^ 32)
    (hne : p.streaming = true → sys.resolve source ≠ sys.resolve archive)
    (hne' : p'.streaming = true → sys'.resolve archive ≠ sys'.resolve target) :
    (∃ c, main sys argv files
        = (.returns 0, Function.update files (sys.resolve archive) (some c)) ∧
      ∀ files' : Files, files' (sys'.resolve archive) = some c →
        main sys' argv' files'
          = (.returns 0, Function.update files' (sys'.resolve target) (some data))) ∧
      ∀ (argv₀ : List String) (p₀ : Parsed) (mode₀ : String), parseArgs {} argv₀ = .ok p₀ →
        p₀.args = [mode₀, source] → isTest mode₀ → main sys argv₀ files = (.returns 0, files) := by
  obtain ⟨c, hc, hrun⟩ := compressFile_works h hsource hlen (accepts_of_parseArgs hp) hne
  refine ⟨⟨c, ?_, fun files' harchive => ?_⟩, fun argv₀ p₀ mode₀ hp₀ hargs₀ hmode₀ => ?_⟩
  · rw [main_compress hp hargs hmode, hrun, thenSize_works h]
    rfl
  · rw [main_decompress hp' hargs' hmode', decompressFile_works h' harchive hc hne',
      thenSize_works h']
    rfl
  · rw [main_test hp₀ hargs₀ hmode₀, runTest_works h hsource hlen (accepts_of_parseArgs hp₀)]
    rfl

theorem cli_lossless_run :
    ∃ c, main plain ["c", "./a", "--stream", "b"] oneFile
        = (.returns 0, Function.update oneFile "b" (some c)) ∧
      ∀ files' : Files, files' "b" = some c →
        main plain ["--huffman", "d", "b", "./a"] files'
          = (.returns 0, Function.update files' "a" (some [7, 7, 7])) := by
  have hp : parseArgs {} ["c", "./a", "--stream", "b"]
      = .ok { streaming := true, args := ["c", "./a", "b"] } := rfl
  have hp' : parseArgs {} ["--huffman", "d", "b", "./a"]
      = .ok { options := { algorithm := .huffman }, args := ["d", "b", "./a"] } := rfl
  exact (cli_lossless plain_works plain_works hp rfl (Or.inl rfl) hp' rfl (Or.inl rfl)
    (show oneFile "a" = some [7, 7, 7] from rfl) (by decide) (fun _ => by decide)
    (fun h => absurd h (by decide))).1

/-! ## On any system -/

/-- The creation of some thread fails. -/
def System.Stops (sys : System) : Prop := ∃ i e, sys.spawn.fails i = some e

/-- A mode throws, which `main` handles; or nobody does, but only if `stops`. -/
def Throws (stops : Prop) : Stop → Prop
  | .exception (.standard _) | .exception .badAlloc => True
  | .exception .other | .terminate | .hang => stops
  | .fault => False

theorem throws_ofError {stops : Prop} {e : Error} (he : e ≠ .fault) :
    Throws stops (.ofError e) := by
  cases e with
  | corruptInput what => trivial
  | invalidArgument what => trivial
  | runtimeError what => trivial
  | lengthError what => trivial
  | fault => exact absurd rfl he

theorem throws_unwind {sys : System} {k : Nat} {e : Exception}
    (hfails : sys.spawn.fails k = some e) : Throws sys.Stops (sys.spawn.unwind k e) := by
  have hstops : sys.Stops := ⟨k, e, hfails⟩
  unfold Spawn.unwind
  split
  case isTrue =>
    cases e with
    | badAlloc => trivial
    | standard what => trivial
    | other => exact hstops
  case isFalse =>
    split
    case isTrue => exact hstops
    case isFalse => exact hstops

section Leaves
variable {sys : System} {p : Parsed} {input output : String} {files : Files} {stops : Prop}
  {Whole Part : List UInt8 → Prop}

/-- The output is as it was, or holds these bytes; every other file is as it was. -/
def Leaves (files : Files) (output : String) (Part : List UInt8 → Prop) (files' : Files) : Prop :=
  files' = files ∨ ∃ kept, files' = Function.update files output (some kept) ∧ Part kept

/-- A mode leaves such a part of its output; and where it returns, the whole was offered. -/
def Ends (sys : System) (files : Files) (output : String) (stops : Prop)
    (Whole Part : List UInt8 → Prop) (ended : Ending Unit × Files) : Prop :=
  Leaves files output Part ended.2 ∧
    match ended.1 with
    | .ok () => ∃ whole, Whole whole ∧
        ended.2 = Function.update files output (some (sys.kept whole))
    | .error stop => Throws stops stop

/-- What was offered to an output, and how that ended. -/
def Offers (stops : Prop) (Whole Part : List UInt8 → Prop) (r : Ending Unit × List UInt8) : Prop :=
  (∀ kept, kept <+: r.2 → Part kept) ∧
    match r.1 with
    | .ok () => Whole r.2
    | .error stop => Throws stops stop

theorem ends_untouched {stop : Stop} (hstop : Throws stops stop) :
    Ends sys files output stops Whole Part (.error stop, files) := ⟨Or.inl rfl, hstop⟩

theorem throws_cannotRead (path : String) : Throws stops (cannotRead path) := trivial

theorem throws_cannotWrite (path : String) : Throws stops (cannotWrite path) := trivial

theorem openRead_eq_some {data : List UInt8} (h : openRead sys files input = some data) :
    files (sys.resolve input) = some data := by
  unfold openRead at h
  split at h
  case isTrue => exact h
  case isFalse => cases h

theorem readFile_bind {α : Type} {data : List UInt8} (h : openRead sys files input = some data)
    (f : List UInt8 → Ending α) : (readFile sys files input >>= f) = f data := by
  rw [readFile, h]
  rfl

theorem writeFile_ends {data : List UInt8} (hwhole : Whole data)
    (hpart : ∀ kept, kept <+: data → Part kept) :
    Ends sys files (sys.resolve output) stops Whole Part (writeFile sys output data files) := by
  unfold writeFile
  by_cases hwrite : sys.writable output = true
  · rw [if_pos hwrite, close, openWrite, if_pos hwrite, Function.update_idem]
    refine ⟨Or.inr ⟨_, rfl, hpart _ (sys.kept_prefix data)⟩, ?_⟩
    dsimp only
    by_cases hgood : data = [] ∨ sys.good [] data = true
    · rw [if_pos hgood]
      exact ⟨data, hwhole, rfl⟩
    · rw [if_neg hgood]
      trivial
  · rw [if_neg hwrite]
    exact ends_untouched (throws_cannotWrite output)

/-- Streams that are opened on one file: the input is empty. -/
theorem withStreams_ends {body : List UInt8 → Writing UInt8 Stop Unit} (hnil : Part [])
    (hbody : ∀ data, files (sys.resolve input) = some data →
      Offers stops Whole Part (outcome (body data) []))
    (hself : ∀ data, files (sys.resolve input) = some data →
      Offers stops Whole Part (outcome (body []) [])) :
    Ends sys files (sys.resolve output) stops Whole Part
      (withStreams sys input output body files) := by
  unfold withStreams
  cases hread : openRead sys files input with
  | none =>
      refine ⟨?_, throws_cannotRead input⟩
      dsimp only
      unfold openWrite
      by_cases hwrite : sys.writable output = true
      · rw [if_pos hwrite]
        exact Or.inr ⟨[], rfl, hnil⟩
      · rw [if_neg hwrite]
        exact Or.inl rfl
  | some data =>
      have hinput := openRead_eq_some hread
      dsimp only
      by_cases hwrite : sys.writable output = true
      · have hopened : openWrite sys output files
            = Function.update files (sys.resolve output) (some []) := if_pos hwrite
        have hoffers : Offers stops Whole Part
            (outcome (body ((openWrite sys output files (sys.resolve input)).getD [])) []) := by
          rw [hopened]
          by_cases hne : sys.resolve input = sys.resolve output
          · rw [hne, Function.update_self]
            exact hself data hinput
          · rw [Function.update_of_ne hne, hinput]
            exact hbody data hinput
        rw [if_pos hwrite]
        revert hoffers
        generalize outcome
          (body ((openWrite sys output files (sys.resolve input)).getD [])) [] = ended
        rintro ⟨hpart, hresult⟩
        obtain ⟨result, offered⟩ := ended
        dsimp only
        rw [hopened, close, Function.update_idem]
        refine ⟨Or.inr ⟨_, rfl, hpart _ (sys.kept_prefix offered)⟩, ?_⟩
        cases result with
        | ok u => exact ⟨offered, hresult, rfl⟩
        | error stop => exact hresult
      · rw [if_neg hwrite, openWrite, if_neg hwrite]
        exact ends_untouched (throws_cannotWrite output)

theorem offers_of_cut {e : Error} {x y : Writing UInt8 Error Unit} (h : Cut e x y)
    (he : e ≠ .fault) (hx : Offers stops Whole Part (endingOf x [])) :
    Offers stops Whole Part (endingOf y []) := by
  unfold endingOf at hx ⊢
  rcases h.cases [] with hsame | ⟨w, hfail, -, hpre⟩
  · rw [hsame]
    exact hx
  · rw [hfail]
    exact ⟨fun kept hkept => hx.1 kept (hkept.trans hpre), throws_ofError he⟩

theorem kWriteFailed_ne : kWriteFailed ≠ .fault := Error.noConfusion

/-- What is left of an archive of the input: it decodes to the input, or to nothing. -/
def ArchivePart (files : Files) (input : String) (kept : List UInt8) : Prop :=
  ∃ data, files input = some data ∧ (decompress kept = .ok data ∨ Unusable kept)

def Archive (files : Files) (input : String) (c : List UInt8) : Prop :=
  ∃ data, files input = some data ∧ decompress c = .ok data

/-- What is left of the contents of the input: a beginning of them, or of its good blocks. -/
def RestoredPart (files : Files) (input : String) (kept : List UInt8) : Prop :=
  match files input with
  | none => kept = []
  | some c =>
      match decompress c with
      | .ok data => kept <+: data
      | .error _ => kept <+: (completeBlocks c).flatten

def Restored (files : Files) (input : String) (data : List UInt8) : Prop :=
  ∃ c, files input = some c ∧ decompress c = .ok data

theorem restoredPart_nil : RestoredPart files input [] := by
  unfold RestoredPart
  cases files input with
  | none => rfl
  | some c =>
      dsimp only
      cases decompress c with
      | ok data => exact List.nil_prefix
      | error e => exact List.nil_prefix

theorem Offers.mono {Whole' Part' : List UInt8 → Prop} {r : Ending Unit × List UInt8}
    (h : Offers stops Whole Part r) (hwhole : ∀ x, Whole x → Whole' x)
    (hpart : ∀ x, Part x → Part' x) : Offers stops Whole' Part' r := by
  obtain ⟨result, offered⟩ := r
  refine ⟨fun kept hkept => hpart kept (h.1 kept hkept), ?_⟩
  cases result with
  | ok u => exact hwhole offered h.2
  | error stop => exact h.2

theorem offers_compressStreamOn {data : List UInt8} (hinput : files input = some data)
    (hlen : data.length < 2 ^ 32) (hok : p.options.algorithm.Accepts p.options.lz77) :
    Offers sys.Stops (Archive files input) (ArchivePart files input)
      (outcome (compressStreamOn sys.spawn sys.good sys.env data data.length p.options) []) := by
  rcases compressStreamOn_cases sys.spawn sys.good sys.env data p.options with
    hsame | ⟨h0, k, e, hfails, hthrow⟩
  · rw [hsame]
    refine offers_of_cut (cut_compressStreamTo _ _ _ _ _) kWriteFailed_ne ?_
    obtain ⟨c, hc, htight⟩ := compressStream_tight_of_lt sys.env (fun _ => hok) hlen
    rw [endingOf, compressStreamTo_ideal, hc]
    exact ⟨fun kept hkept => ⟨data, hinput, kept_cases htight hkept⟩, data, hinput, htight.decodes⟩
  · -- a header is all that a pool that fails leaves
    rw [hthrow]
    exact ⟨fun kept hkept => ⟨data, hinput, Or.inr (unusable_of_prefix_header h0 (by omega) hkept)⟩,
      throws_unwind hfails⟩

/-- The input is empty by the time it is read: at most a header is written, and something is
thrown. -/
theorem offers_compressStreamOn_nil {options : Options} {totalSize : Nat} (h0 : 0 < totalSize)
    (hmax : totalSize ≤ maxSize) :
    Offers sys.Stops (fun _ => False) (fun kept => kept <+: header .blocked totalSize)
      (outcome (compressStreamOn sys.spawn sys.good sys.env [] totalSize options) []) := by
  rcases compressStreamOn_cases sys.spawn sys.good sys.env [] options with
    hsame | ⟨-, k, e, hfails, hthrow⟩
  · rw [hsame]
    refine offers_of_cut (cut_compressStreamTo _ _ _ _ _) kWriteFailed_ne ?_
    obtain ⟨hwritten, e, he, hne⟩ := compressStream_nil sys.env options h0 hmax
    rw [endingOf, compressStreamTo_ideal, he]
    exact ⟨fun kept hkept => hkept.trans hwritten, throws_ofError hne⟩
  · rw [hthrow]
    exact ⟨fun kept hkept => hkept, throws_unwind hfails⟩

/-- Onto the input itself. -/
theorem offers_compressStreamOn_self {data : List UInt8} (hinput : files input = some data)
    (hlen : data.length < 2 ^ 32) (hok : p.options.algorithm.Accepts p.options.lz77) :
    Offers sys.Stops (Archive files input) (ArchivePart files input)
      (outcome (compressStreamOn sys.spawn sys.good sys.env [] data.length p.options) []) := by
  by_cases hdata : data = []
  · rw [hdata] at hinput hlen ⊢
    exact offers_compressStreamOn hinput hlen hok
  have h0 := List.length_pos_iff.mpr hdata
  have hmax : data.length ≤ maxSize := by
    unfold maxSize
    omega
  refine (offers_compressStreamOn_nil h0 hmax).mono (fun _ => False.elim) fun kept hkept => ?_
  exact ⟨data, hinput, Or.inr (unusable_of_prefix_header h0 (by omega) hkept)⟩

theorem offers_decompressStreamTo {c : List UInt8} (hinput : files input = some c) :
    Offers stops (Restored files input) (RestoredPart files input)
      (outcome (rethrow .ofError (decompressStreamTo sys.good c)) []) := by
  rw [outcome_rethrow_ofError]
  refine offers_of_cut (cut_decompressStreamTo _ _) kWriteFailed_ne ?_
  rw [endingOf, decompressStreamTo_ideal]
  unfold RestoredPart
  rcases decompress_agree c with ⟨x, hx, hstream⟩ | ⟨what, what', hwhat, hstream⟩
  · rw [hstream, hinput]
    dsimp only
    rw [hx]
    exact ⟨fun kept hkept => hkept, c, hinput, hx⟩
  · rw [hstream, hinput]
    dsimp only
    rw [hwhat]
    exact ⟨fun kept hkept => hkept, trivial⟩

theorem offers_decompressStreamTo_nil : Offers stops (Restored files input)
    (RestoredPart files input) (outcome (rethrow .ofError (decompressStreamTo sys.good [])) []) := by
  rw [outcome_rethrow_ofError]
  refine offers_of_cut (cut_decompressStreamTo _ _) kWriteFailed_ne ?_
  have hnone : decompressStream []
      = { written := [], result := .error (.corruptInput "input is shorter than the header") } :=
    rfl
  rw [endingOf, decompressStreamTo_ideal, hnone]
  refine ⟨fun kept hkept => ?_, trivial⟩
  rw [List.prefix_nil.mp hkept]
  exact restoredPart_nil

theorem unusable_nil : Unusable [] := unusable_of_error ⟨_, decompress_of_lt (by decide)⟩

theorem compressFile_ends (hok : p.options.algorithm.Accepts p.options.lz77)
    (hlen : ∀ data, files (sys.resolve input) = some data → data.length < 2 ^ 32) :
    Ends sys files (sys.resolve output) sys.Stops (Archive files (sys.resolve input))
      (ArchivePart files (sys.resolve input)) (compressFile sys p input output files) := by
  unfold compressFile
  cases hread : openRead sys files input with
  | none =>
      rw [fileSize, readFile, hread]
      split
      case isTrue => exact ends_untouched (throws_cannotRead input)
      case isFalse => exact ends_untouched (throws_cannotRead input)
  | some data =>
      have hinput := openRead_eq_some hread
      rw [fileSize, hread]
      split
      case isTrue =>
        refine withStreams_ends ⟨data, hinput, Or.inr unusable_nil⟩ (fun data' hdata' => ?_)
          fun _ _ => offers_compressStreamOn_self hinput (hlen data hinput) hok
        rw [hinput] at hdata'
        cases hdata'
        exact offers_compressStreamOn hinput (hlen data hinput) hok
      case isFalse =>
        obtain ⟨c, hc, htight⟩ := compress_tight_of_lt sys.env (fun _ => hok) (hlen data hinput)
        rw [readFile_bind hread]
        rcases compressOn_cases sys.spawn sys.env data p.options with
          hsame | ⟨k, e, hfails, hthrow⟩
        · rw [hsame, hc]
          exact writeFile_ends ⟨data, hinput, htight.decodes⟩ fun kept hkept =>
            ⟨data, hinput, kept_cases htight hkept⟩
        · rw [hthrow]
          exact ends_untouched (throws_unwind hfails)

/-- No threads are created. -/
theorem decompressFile_ends : Ends sys files (sys.resolve output) False
    (Restored files (sys.resolve input)) (RestoredPart files (sys.resolve input))
    (decompressFile sys p input output files) := by
  unfold decompressFile
  split
  case isTrue =>
    exact withStreams_ends restoredPart_nil (fun c hinput => offers_decompressStreamTo hinput)
      fun _ _ => offers_decompressStreamTo_nil
  case isFalse =>
    cases hread : openRead sys files input with
    | none =>
        rw [readFile, hread]
        exact ends_untouched (throws_cannotRead input)
    | some c =>
        have hinput := openRead_eq_some hread
        rw [readFile_bind hread]
        rcases decompress_agree c with ⟨x, hx, -⟩ | ⟨what, -, hwhat, -⟩
        · rw [hx]
          refine writeFile_ends ⟨c, hinput, hx⟩ fun kept hkept => ?_
          unfold RestoredPart
          rw [hinput]
          dsimp only
          rw [hx]
          exact hkept
        · rw [hwhat]
          exact ends_untouched trivial

/-- The process is ended with an error; or in some other way, or not at all, but only if
`stops`. -/
def Exit.Failed (stops : Prop) : Exit → Prop
  | .fails _ => True
  | .aborts | .hangs => stops
  | .returns _ | .fault => False

theorem failed_exitOf {stop : Stop} (h : Throws stops stop) :
    (exitOf (.error stop)).Failed stops := by
  cases stop with
  | exception e =>
      cases e with
      | badAlloc => trivial
      | standard what => trivial
      | other => exact h
  | terminate => exact h
  | hang => exact h
  | fault => exact h

/-- How a run of a mode ended, as it is seen from outside. -/
def Outcome (sys : System) (files : Files) (output : String) (stops : Prop)
    (Whole Part : List UInt8 → Prop) (ended : Exit × Files) : Prop :=
  Leaves files output Part ended.2 ∧
    (ended.1.Failed stops ∨ ended.1 = .returns 0 ∧ ∃ whole, Whole whole ∧
      ended.2 = Function.update files output (some (sys.kept whole)))

theorem outcome_of_ends {ended : Ending Unit × Files}
    (h : Ends sys files output stops Whole Part ended) (path : String) :
    Outcome sys files output stops Whole Part (exitOf (thenSize sys path ended).1, ended.2) := by
  obtain ⟨r, files'⟩ := ended
  obtain ⟨hleaves, hr⟩ := h
  refine ⟨hleaves, ?_⟩
  cases r with
  | error stop => exact Or.inl (failed_exitOf hr)
  | ok u =>
      unfold thenSize fileSize
      dsimp only
      cases openRead sys files' path with
      | none => exact Or.inl trivial
      | some data => exact Or.inr ⟨rfl, hr⟩

end Leaves

/-- **What a run leaves**, on any system: files that cannot be opened, threads that cannot be
created, writes that fail, bytes that are lost when a file is closed.  Only the output changes.
After `c` it holds an archive of the input or something that no decoder accepts, never an archive of
anything else; after `d` a beginning of the contents, or of the good blocks of a corrupt archive.
Where 0 is returned, all of it was offered to the file; the process does not fault, and it is `c`
with a thread that is not created that may end in another way, or never. -/
theorem cli_leaves (sys : System) {argv : List String} {p : Parsed} {mode input output : String}
    (hp : parseArgs {} argv = .ok p) (hargs : p.args = [mode, input, output]) {files : Files}
    (hlen : ∀ data, files (sys.resolve input) = some data → data.length < 2 ^ 32) :
    (isCompress mode → Outcome sys files (sys.resolve output) sys.Stops
        (Archive files (sys.resolve input)) (ArchivePart files (sys.resolve input))
        (main sys argv files)) ∧
      (isDecompress mode → Outcome sys files (sys.resolve output) False
        (Restored files (sys.resolve input)) (RestoredPart files (sys.resolve input))
        (main sys argv files)) := by
  refine ⟨fun hmode => ?_, fun hmode => ?_⟩
  · rw [main_compress hp hargs hmode]
    exact outcome_of_ends (compressFile_ends (accepts_of_parseArgs hp) hlen) output
  · rw [main_decompress hp hargs hmode]
    exact outcome_of_ends decompressFile_ends output

/-- The second thread is not created, and three bytes are kept. -/
def crowded : System := { plain with
  spawn :=
    { fails := fun i => if i = 1 then some (.standard "Resource temporarily unavailable") else none
      waits := fun _ => false }
  kept := List.take 3
  kept_prefix := List.take_prefix 3 }

def crowdedLine : List String :=
  ["c", "--stream", "--threads", "2", "--block-size", "2", "a", "b"]

theorem cli_leaves_run :
    Outcome crowded oneFile "b" crowded.Stops (Archive oneFile "a") (ArchivePart oneFile "a")
        (main crowded crowdedLine oneFile) ∧
      (main crowded crowdedLine oneFile).1 = .aborts ∧
      (main crowded crowdedLine oneFile).2 "b" = some [67, 77, 80] := by
  have hp : parseArgs {} crowdedLine = .ok
      { streaming := true, options := { threads := 2, blockSize := 2 }, args := ["c", "a", "b"] } :=
    rfl
  refine ⟨(cli_leaves crowded hp rfl fun data hdata => ?_).1 (Or.inl rfl), by decide, by decide⟩
  cases hdata
  decide

/-! ## What `--stream` destroys -/

section Destroys
variable {sys : System} {input output : String} {files : Files}

/-- Both streams are opened on one file that was there. -/
theorem withStreams_self (hsame : sys.resolve input = sys.resolve output)
    (hread : sys.readable input = true) (hwrite : sys.writable output = true) {data : List UInt8}
    (hfile : files (sys.resolve input) = some data) (body : List UInt8 → Writing UInt8 Stop Unit) :
    withStreams sys input output body files
      = ((outcome (body []) []).1,
        Function.update files (sys.resolve output) (some (sys.kept (outcome (body []) []).2))) := by
  have hopen : openRead sys files input = some data := by
    rw [openRead, if_pos hread, hfile]
  have hopened : openWrite sys output files
      = Function.update files (sys.resolve output) (some []) := if_pos hwrite
  unfold withStreams
  rw [hopen, hopened]
  dsimp only
  rw [if_pos hwrite, hsame, Function.update_self, close, Function.update_idem]
  rfl

/-- An input that is not there, and an output that is opened all the same. -/
theorem withStreams_missing (hwrite : sys.writable output = true)
    (hfile : files (sys.resolve input) = none) (body : List UInt8 → Writing UInt8 Stop Unit) :
    withStreams sys input output body files
      = (.error (cannotRead input), Function.update files (sys.resolve output) (some [])) := by
  have hopen : openRead sys files input = none := by
    rw [openRead, hfile, ite_self]
  have hopened : openWrite sys output files
      = Function.update files (sys.resolve output) (some []) := if_pos hwrite
  unfold withStreams
  rw [hopen, hopened]
  rfl

theorem decompressStreamTo_nil (good : Stream UInt8) :
    outcome (rethrow Stop.ofError (decompressStreamTo good [])) []
      = (.error (.ofError (.corruptInput "input is shorter than the header")), []) := rfl

end Destroys

/-- **`--stream` opens its output before it reads.**  Onto the input itself, whatever it is called,
`c` leaves a piece of a header in place of data, and `d` an empty file, each with an error; and
where the input is missing, `d` has emptied the output, which `c` leaves alone. -/
theorem cli_stream_destroys (sys : System) {argv : List String} {p : Parsed}
    {mode input output : String} (hp : parseArgs {} argv = .ok p)
    (hargs : p.args = [mode, input, output]) (hstream : p.streaming = true)
    (hwrite : sys.writable output = true) (files : Files) :
    (∀ data, sys.resolve input = sys.resolve output → files (sys.resolve input) = some data →
        sys.readable input = true →
        (isCompress mode → data ≠ [] → data.length ≤ maxSize → ∃ exit kept,
          main sys argv files
              = (exit, Function.update files (sys.resolve output) (some kept)) ∧
            exit.Failed sys.Stops ∧ kept <+: header .blocked data.length ∧ Unusable kept) ∧
          (isDecompress mode → main sys argv files
            = (.fails "input is shorter than the header",
              Function.update files (sys.resolve output) (some [])))) ∧
      (files (sys.resolve input) = none →
        (isCompress mode → main sys argv files
          = (.fails ("cannot open " ++ input ++ " for reading"), files)) ∧
          (isDecompress mode → main sys argv files
            = (.fails ("cannot open " ++ input ++ " for reading"),
              Function.update files (sys.resolve output) (some [])))) := by
  refine ⟨fun data hsame hfile hread => ?_, fun hmissing => ?_⟩
  · have hopen : openRead sys files input = some data := by
      rw [openRead, if_pos hread, hfile]
    refine ⟨fun hmode hdata hmax => ?_, fun hmode => ?_⟩
    · have h0 := List.length_pos_iff.mpr hdata
      have hoffers := @offers_compressStreamOn_nil sys p.options data.length h0 hmax
      rw [main_compress hp hargs hmode, compressFile, if_pos hstream, fileSize, hopen]
      change ∃ exit kept, (exitOf (thenSize sys output (withStreams sys input output _ files)).1,
        (withStreams sys input output _ files).2) = _ ∧ _
      rw [withStreams_self hsame hread hwrite hfile]
      revert hoffers
      generalize outcome (compressStreamOn sys.spawn sys.good sys.env [] data.length p.options) []
        = ended
      obtain ⟨result, offered⟩ := ended
      rintro ⟨hpart, hresult⟩
      cases result with
      | ok u => exact hresult.elim
      | error stop =>
          have hkept := hpart _ (sys.kept_prefix offered)
          exact ⟨exitOf (.error stop), _, rfl, failed_exitOf hresult, hkept,
            unusable_of_prefix_header h0 (lt_of_le_of_lt hmax (by decide)) hkept⟩
    · have hkept : sys.kept [] = [] := List.prefix_nil.mp (sys.kept_prefix [])
      rw [main_decompress hp hargs hmode, decompressFile, if_pos hstream,
        withStreams_self hsame hread hwrite hfile, decompressStreamTo_nil, hkept]
      rfl
  · refine ⟨fun hmode => ?_, fun hmode => ?_⟩
    · have hopen : openRead sys files input = none := by
        rw [openRead, hmissing, ite_self]
      rw [main_compress hp hargs hmode, compressFile, if_pos hstream, fileSize, hopen]
      rfl
    · rw [main_decompress hp hargs hmode, decompressFile, if_pos hstream,
        withStreams_missing hwrite hmissing]
      rfl

theorem cli_stream_destroys_run : main plain ["--stream", "d", "a", "./a"] oneFile
    = (.fails "input is shorter than the header", Function.update oneFile "a" (some [])) := by
  have hp : parseArgs {} ["--stream", "d", "a", "./a"]
      = .ok { streaming := true, args := ["d", "a", "./a"] } := rfl
  exact ((cli_stream_destroys plain hp rfl rfl rfl oneFile).1 [7, 7, 7] rfl rfl rfl).2 (Or.inl rfl)

end Compressly.Cli
