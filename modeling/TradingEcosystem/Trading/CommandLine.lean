import TradingEcosystem.Trading.TradeEngine
import Mathlib.Data.List.TakeWhile

/-!
# The Command Line of a Trading Client

`trading/trading_main.cpp` builds its trade engine from the arguments: a client id, the name of an
algorithm, and five numbers for each of the first tickers.

- `atoi`, `stringToAlgoType` : how an argument is read
- `parseTickers` : the loop over the tickers
- `main` : the set-up the engine is constructed with
- `main_spec` : which command lines are taken, and what becomes of the others
-/

namespace TradingEcosystem

namespace CommandLine

variable {F : Type}

/-! ## Single arguments -/

/-- `std::isspace`. -/
def isSpace (c : Char) : Bool := c == ' ' || (9 ≤ c.toNat && c.toNat ≤ 13)

/-- The number that the text begins with, 0 where it begins with something else. -/
def leadingNumber (cs : List Char) : ℕ := Nat.ofDigitChars 10 (cs.takeWhile Char.isDigit) 0

/-- `std::atoi`; what it makes of a number that is no `int` is left open. -/
def atoi (N : Arith F) (s : String) : ℤ :=
  match s.toList.dropWhile isSpace with
  | '-' :: cs => N.int32 (-(leadingNumber cs : ℤ))
  | '+' :: cs => N.int32 (leadingNumber cs)
  | cs => N.int32 (leadingNumber cs)

/-- Conversion of an `int` to `uint32_t`. -/
def toUInt32 (x : ℤ) : ℕ := (x % 2 ^ 32).toNat

def algoTypeToString : AlgoType → String
  | .RANDOM => "RANDOM"
  | .MAKER => "MAKER"
  | .TAKER => "TAKER"
  | .INVALID => "INVALID"
  | .MAX => "MAX"

/-- The loop over the enumerators. -/
def stringToAlgoType (str : String) : AlgoType :=
  ([AlgoType.INVALID, .RANDOM, .MAKER, .TAKER, .MAX].find? fun algo_type =>
    algoTypeToString algo_type == str).getD .INVALID

/-! ## All the arguments -/

/-- `TradeEngineCfg` from the five arguments of a ticker.  `atof` is the library's. -/
def tickerCfg (N : Arith F) (atof : String → F)
    (clip thresh max_order_size max_pos max_loss : String) : TradeEngineCfg F where
  clip_ := toUInt32 (atoi N clip)
  threshold_ := atof thresh
  risk_cfg_ :=
    { max_order_size_ := toUInt32 (atoi N max_order_size)
      max_position_ := toUInt32 (atoi N max_pos)
      max_loss_ := atof max_loss }

/-- The loop over the tickers.  The arguments are read before `.at` checks the index, and the
pointer behind the last argument is null. -/
def parseTickers (N : Arith F) (atof : String → F) :
    ℕ → (ℕ → TradeEngineCfg F) → List String → Except Fault (ℕ → TradeEngineCfg F)
  | _, ticker_cfg, [] => .ok ticker_cfg
  | next_ticker_id, ticker_cfg, clip :: thresh :: max_order_size :: max_pos :: max_loss :: args =>
    if next_ticker_id < ME_MAX_TICKERS then
      parseTickers N atof (next_ticker_id + 1)
        (Function.update ticker_cfg next_ticker_id
          (tickerCfg N atof clip thresh max_order_size max_pos max_loss)) args
    else
      .error .outOfRange
  | _, _, _ => .error .nullDeref

/-- What `main` constructs the trade engine with; `open_vwap` is what its memory holds before. -/
def main (N : Arith F) (atof : String → F) (open_vwap : ℕ → Side → F) (argv : List String) :
    Except Fault (Setup F) :=
  match argv with
  | _ :: client_id :: algo_type :: args => do
    let ticker_cfg ← parseTickers N atof 0 (fun _ => .default N) args
    .ok
      { toArith := N
        client_id_ := toUInt32 (atoi N client_id)
        algo_type := stringToAlgoType algo_type
        ticker_cfg := ticker_cfg
        open_vwap := open_vwap }
  -- the usage is printed
  | _ => .error .assert

/-! ## What is read back -/

theorem leadingNumber_toString (n : ℕ) : leadingNumber (ToString.toString n).toList = n := by
  have hall : ∀ c ∈ Nat.toDigits 10 n, c.isDigit = true := fun c hc =>
    Nat.isDigit_of_mem_toDigits (by decide) (by decide) hc
  rw [leadingNumber, Nat.toString_eq_ofList_toDigits, String.toList_ofList,
    List.takeWhile_eq_self_iff.mpr hall, Nat.ofDigitChars_toDigits (by decide) (by decide)]

/-- A text that begins with a digit has no spaces and no sign to skip. -/
theorem atoi_of_isDigit (N : Arith F) {s : String} {c : Char} {cs : List Char}
    (hs : s.toList = c :: cs) (hc : c.isDigit = true) :
    atoi N s = N.int32 (leadingNumber s.toList) := by
  have hlow : 48 ≤ c.toNat := by
    simp only [Char.isDigit, Bool.and_eq_true, decide_eq_true_eq, ge_iff_le,
      UInt32.le_iff_toNat_le] at hc
    exact hc.1
  have hspace : isSpace c = false := by
    have hne : c ≠ ' ' := by
      rintro rfl
      exact absurd hc (by decide)
    simp only [isSpace, beq_eq_false_iff_ne.mpr hne, Bool.false_or, Bool.and_eq_false_iff,
      decide_eq_false_iff_not]
    omega
  unfold atoi
  rw [hs, List.dropWhile_cons_of_neg (by simp [hspace])]
  split
  · next heq =>
    obtain rfl := (List.cons.inj heq).1
    exact absurd hc (by decide)
  · next heq =>
    obtain rfl := (List.cons.inj heq).1
    exact absurd hc (by decide)
  · rfl

/-- A number is read back from its digits. -/
theorem atoi_toString (N : Arith F) {n : ℕ} (hn : n < 2 ^ 31) :
    toUInt32 (atoi N (ToString.toString n)) = n := by
  obtain ⟨c, cs, hdigits⟩ := List.exists_cons_of_ne_nil (Nat.toDigits_ne_nil (n := n) (b := 10))
  have hs : (ToString.toString n).toList = c :: cs := by
    rw [Nat.toString_eq_ofList_toDigits, String.toList_ofList, hdigits]
  have hc : c.isDigit = true := Nat.isDigit_of_mem_toDigits (b := 10) (n := n) (by decide)
    (by decide) (by rw [hdigits]; exact List.mem_cons_self ..)
  have hfits : FitsInt32 (n : ℤ) := ⟨by omega, by omega⟩
  rw [atoi_of_isDigit N hs hc, leadingNumber_toString, N.int32_eq _ hfits]
  unfold toUInt32
  omega

theorem stringToAlgoType_algoTypeToString (algo_type : AlgoType) :
    stringToAlgoType (algoTypeToString algo_type) = algo_type := by
  cases algo_type <;> decide

/-! ## Which command lines are taken -/

/-- The configuration that the group of five arguments `i` says. -/
def cfgAt (N : Arith F) (atof : String → F) (args : List String) (i : ℕ) : TradeEngineCfg F :=
  let arg (j : ℕ) := args.getD (5 * i + j) ""
  tickerCfg N atof (arg 0) (arg 1) (arg 2) (arg 3) (arg 4)

/-- What the loop makes of `args`, entered for ticker `next_ticker_id`. -/
inductive Parsed (N : Arith F) (atof : String → F) (next_ticker_id : ℕ)
    (ticker_cfg : ℕ → TradeEngineCfg F) (args : List String) :
    Except Fault (ℕ → TradeEngineCfg F) → Prop where
  /-- There are more groups than tickers. -/
  | tooMany (h : ME_MAX_TICKERS < next_ticker_id + args.length / 5) :
      Parsed N atof next_ticker_id ticker_cfg args (.error .outOfRange)
  /-- The last group is cut short. -/
  | cut (hroom : next_ticker_id + args.length / 5 ≤ ME_MAX_TICKERS) (hcut : args.length % 5 ≠ 0) :
      Parsed N atof next_ticker_id ticker_cfg args (.error .nullDeref)
  /-- Each group is the configuration of one ticker, and the other tickers keep theirs. -/
  | groups (cfg : ℕ → TradeEngineCfg F) (hroom : next_ticker_id + args.length / 5 ≤ ME_MAX_TICKERS)
      (hwhole : args.length % 5 = 0)
      (hcfg : ∀ t, cfg t = if next_ticker_id ≤ t ∧ 5 * (t - next_ticker_id) < args.length then
        cfgAt N atof args (t - next_ticker_id) else ticker_cfg t) :
      Parsed N atof next_ticker_id ticker_cfg args (.ok cfg)

theorem cfgAt_cons (N : Arith F) (atof : String → F)
    (clip thresh max_order_size max_pos max_loss : String) (args : List String) (i : ℕ) :
    cfgAt N atof (clip :: thresh :: max_order_size :: max_pos :: max_loss :: args) (i + 1) =
      cfgAt N atof args i := by
  have hget : ∀ j, (clip :: thresh :: max_order_size :: max_pos :: max_loss :: args).getD
      (5 * (i + 1) + j) "" = args.getD (5 * i + j) "" := by
    intro j
    have hindex : 5 * (i + 1) + j = 5 * i + j + 5 := by omega
    rw [hindex]
    rfl
  simp only [cfgAt, hget]

/-- A group in front. -/
theorem Parsed.cons {N : Arith F} {atof : String → F} {next_ticker_id : ℕ}
    {ticker_cfg : ℕ → TradeEngineCfg F} {clip thresh max_order_size max_pos max_loss : String}
    {args : List String} {result : Except Fault (ℕ → TradeEngineCfg F)}
    (h : Parsed N atof (next_ticker_id + 1)
      (Function.update ticker_cfg next_ticker_id
        (tickerCfg N atof clip thresh max_order_size max_pos max_loss)) args result) :
    Parsed N atof next_ticker_id ticker_cfg
      (clip :: thresh :: max_order_size :: max_pos :: max_loss :: args) result := by
  have hlen : (clip :: thresh :: max_order_size :: max_pos :: max_loss :: args).length =
      args.length + 5 := rfl
  cases h with
  | tooMany h => exact .tooMany (by omega)
  | cut hroom hcut => exact .cut (by omega) (by omega)
  | groups cfg hroom hwhole hcfg =>
    refine .groups cfg (by omega) (by omega) fun t => ?_
    rw [hcfg t, hlen]
    rcases Nat.lt_trichotomy t next_ticker_id with hlt | rfl | hgt
    · rw [if_neg (by omega), if_neg (by omega), Function.update_of_ne (by omega)]
    · -- the ticker of the group itself
      rw [if_neg (by omega), if_pos (by omega), Function.update_self, Nat.sub_self]
      rfl
    · obtain ⟨n, rfl⟩ : ∃ n, t = next_ticker_id + 1 + n := ⟨t - (next_ticker_id + 1), by omega⟩
      have hsub : next_ticker_id + 1 + n - next_ticker_id = n + 1 := by omega
      have hcond : (next_ticker_id + 1 ≤ next_ticker_id + 1 + n ∧ 5 * n < args.length) ↔
          (next_ticker_id ≤ next_ticker_id + 1 + n ∧ 5 * (n + 1) < args.length + 5) := by omega
      rw [Nat.add_sub_cancel_left, hsub, Function.update_of_ne (by omega), cfgAt_cons]
      simp only [hcond]

/-- **The loop takes whole groups of five, for as many tickers as there are**; induction on the
groups. -/
theorem parseTickers_spec (N : Arith F) (atof : String → F) :
    ∀ (args : List String) (next_ticker_id : ℕ) (ticker_cfg : ℕ → TradeEngineCfg F),
      next_ticker_id ≤ ME_MAX_TICKERS →
      Parsed N atof next_ticker_id ticker_cfg args
        (parseTickers N atof next_ticker_id ticker_cfg args)
  | [], next_ticker_id, ticker_cfg, hnext => by
    rw [parseTickers]
    exact .groups ticker_cfg hnext rfl fun t => by simp
  | clip :: thresh :: max_order_size :: max_pos :: max_loss :: args, next_ticker_id, ticker_cfg,
      hnext => by
    rw [parseTickers]
    split
    · next hlt => exact (parseTickers_spec N atof args (next_ticker_id + 1) _ hlt).cons
    · next hfull =>
      refine .tooMany ?_
      simp only [List.length_cons]
      omega
  | [_], _, _, hnext => .cut (by simpa using hnext) (by simp)
  | [_, _], _, _, hnext => .cut (by simpa using hnext) (by simp)
  | [_, _, _], _, _, hnext => .cut (by simpa using hnext) (by simp)
  | [_, _, _, _], _, _, hnext => .cut (by simpa using hnext) (by simp)

/-! ## Configurations as arguments -/

/-- The arguments for a ticker; `ftoa` prints a `double`. -/
def render (ftoa : F → String) (cfg : TradeEngineCfg F) : List String :=
  [ToString.toString cfg.clip_, ftoa cfg.threshold_,
    ToString.toString cfg.risk_cfg_.max_order_size_, ToString.toString cfg.risk_cfg_.max_position_,
    ftoa cfg.risk_cfg_.max_loss_]

/-- `./trading_main CLIENT_ID ALGO_TYPE [CLIP THRESH MAX_ORDER_SIZE MAX_POS MAX_LOSS] ...`. -/
def commandLine (ftoa : F → String) (client_id : ℕ) (algo_type : AlgoType)
    (cfgs : List (TradeEngineCfg F)) : List String :=
  "./trading_main" :: ToString.toString client_id :: algoTypeToString algo_type ::
    cfgs.flatMap (render ftoa)

/-- The numbers are in the range of `int`, and `atof` reads the others back. -/
structure Printable (atof : String → F) (ftoa : F → String) (cfg : TradeEngineCfg F) : Prop where
  clip : cfg.clip_ < 2 ^ 31
  max_order_size : cfg.risk_cfg_.max_order_size_ < 2 ^ 31
  max_position : cfg.risk_cfg_.max_position_ < 2 ^ 31
  threshold : atof (ftoa cfg.threshold_) = cfg.threshold_
  max_loss : atof (ftoa cfg.risk_cfg_.max_loss_) = cfg.risk_cfg_.max_loss_

theorem Printable.tickerCfg_eq {atof : String → F} {ftoa : F → String} {cfg : TradeEngineCfg F}
    (h : Printable atof ftoa cfg) (N : Arith F) :
    tickerCfg N atof (ToString.toString cfg.clip_) (ftoa cfg.threshold_)
      (ToString.toString cfg.risk_cfg_.max_order_size_)
      (ToString.toString cfg.risk_cfg_.max_position_) (ftoa cfg.risk_cfg_.max_loss_) = cfg := by
  simp only [tickerCfg, atoi_toString N h.clip, atoi_toString N h.max_order_size,
    atoi_toString N h.max_position, h.threshold, h.max_loss]

theorem length_flatMap_render (ftoa : F → String) (cfgs : List (TradeEngineCfg F)) :
    (cfgs.flatMap (render ftoa)).length = 5 * cfgs.length := by
  induction cfgs with
  | nil => rfl
  | cons cfg cfgs ih =>
    simp only [List.flatMap_cons, List.length_append, ih, render, List.length_cons,
      List.length_nil]
    omega

/-- The groups are the configurations. -/
theorem cfgAt_flatMap_render (N : Arith F) {atof : String → F} {ftoa : F → String} :
    ∀ (cfgs : List (TradeEngineCfg F)) (i : ℕ), (∀ cfg ∈ cfgs, Printable atof ftoa cfg) →
      ∀ hi : i < cfgs.length, cfgAt N atof (cfgs.flatMap (render ftoa)) i = cfgs[i]
  | cfg :: cfgs, 0, h, _ => (h cfg (List.mem_cons_self ..)).tickerCfg_eq N
  | cfg :: cfgs, i + 1, h, hi => by
    have hrest := cfgAt_flatMap_render N cfgs i (fun cfg hmem => h cfg (List.mem_cons_of_mem _ hmem))
      (Nat.lt_of_succ_lt_succ hi)
    rw [List.flatMap_cons, render]
    simp only [List.cons_append, List.nil_append, cfgAt_cons, hrest, List.getElem_cons_succ]

/-- What `main` makes of the arguments behind the first three. -/
theorem main_eq (N : Arith F) (atof : String → F) (open_vwap : ℕ → Side → F)
    (program client_id algo_type : String) (args : List String) :
    main N atof open_vwap (program :: client_id :: algo_type :: args) =
      parseTickers N atof 0 (fun _ => .default N) args >>= fun ticker_cfg =>
        .ok
          { toArith := N
            client_id_ := toUInt32 (atoi N client_id)
            algo_type := stringToAlgoType algo_type
            ticker_cfg := ticker_cfg
            open_vwap := open_vwap } := rfl

/-- **Which command lines are taken.** -/
theorem main_cases (N : Arith F) (atof : String → F) (open_vwap : ℕ → Side → F)
    (argv : List String) :
    (argv.length < 3 → main N atof open_vwap argv = .error .assert) ∧
    (48 ≤ argv.length → main N atof open_vwap argv = .error .outOfRange) ∧
    (3 ≤ argv.length → argv.length < 48 → argv.length % 5 ≠ 3 →
      main N atof open_vwap argv = .error .nullDeref) ∧
    (3 ≤ argv.length → argv.length < 48 → argv.length % 5 = 3 →
      ∃ S, main N atof open_vwap argv = .ok S) := by
  match argv with
  | [] | [_] | [_, _] =>
    refine ⟨fun _ => rfl, fun h => ?_, fun h => ?_, fun h => ?_⟩
    all_goals simp at h
  | program :: client_id :: algo_type :: args =>
    have hlen : (program :: client_id :: algo_type :: args).length = args.length + 3 := rfl
    have hparsed := parseTickers_spec N atof args 0 (fun _ => .default N) (Nat.zero_le _)
    rw [main_eq, hlen]
    generalize parseTickers N atof 0 (fun _ => .default N) args = result at hparsed ⊢
    cases hparsed with
    | tooMany h =>
      simp only [ME_MAX_TICKERS] at h
      exact ⟨fun _ => by omega, fun _ => rfl, fun _ _ _ => by omega, fun _ _ _ => by omega⟩
    | cut hroom hcut =>
      simp only [ME_MAX_TICKERS] at hroom
      exact ⟨fun _ => by omega, fun _ => by omega, fun _ _ _ => rfl, fun _ _ _ => by omega⟩
    | groups cfg hroom hwhole hcfg =>
      simp only [ME_MAX_TICKERS] at hroom
      exact ⟨fun _ => by omega, fun _ => by omega, fun _ _ _ => by omega, fun _ _ _ => ⟨_, rfl⟩⟩

/-- **Which command lines a trading client takes**: those with whole groups of five for at most
eight tickers; without an algorithm the usage is printed, and a group cut short or a ninth one stops
the process.  A command line made from a set-up gives that set-up back, the tickers it does not
mention at the default configuration. -/
theorem main_spec (N : Arith F) (atof : String → F) (open_vwap : ℕ → Side → F) :
    (∀ argv : List String,
      (argv.length < 3 → main N atof open_vwap argv = .error .assert) ∧
      (48 ≤ argv.length → main N atof open_vwap argv = .error .outOfRange) ∧
      (3 ≤ argv.length → argv.length < 48 → argv.length % 5 ≠ 3 →
        main N atof open_vwap argv = .error .nullDeref) ∧
      (3 ≤ argv.length → argv.length < 48 → argv.length % 5 = 3 →
        ∃ S, main N atof open_vwap argv = .ok S)) ∧
    ∀ (ftoa : F → String) (client_id : ℕ) (algo_type : AlgoType) (cfgs : List (TradeEngineCfg F)),
      client_id < 2 ^ 31 → cfgs.length ≤ ME_MAX_TICKERS →
      (∀ cfg ∈ cfgs, Printable atof ftoa cfg) →
      ∃ S, main N atof open_vwap (commandLine ftoa client_id algo_type cfgs) = .ok S ∧
        S.client_id_ = client_id ∧ S.algo_type = algo_type ∧
        ∀ t, S.ticker_cfg t = cfgs.getD t (.default N) := by
  refine ⟨main_cases N atof open_vwap, fun ftoa client_id algo_type cfgs hclient hroom hcfgs => ?_⟩
  have hlen := length_flatMap_render ftoa cfgs
  have hparsed := parseTickers_spec N atof (cfgs.flatMap (render ftoa)) 0 (fun _ => .default N)
    (Nat.zero_le _)
  rw [commandLine, main_eq]
  generalize parseTickers N atof 0 (fun _ => .default N) (cfgs.flatMap (render ftoa)) = result
    at hparsed ⊢
  cases hparsed with
  | tooMany h => omega
  | cut hroom' hcut => omega
  | groups cfg hroom' hwhole hcfg =>
    refine ⟨_, rfl, atoi_toString N hclient, stringToAlgoType_algoTypeToString algo_type,
      fun t => ?_⟩
    simp only [hcfg t, Nat.zero_le, true_and, Nat.sub_zero, hlen]
    by_cases ht : t < cfgs.length
    · rw [if_pos (by omega), cfgAt_flatMap_render N cfgs t hcfgs ht, List.getD_eq_getElem _ _ ht]
    · rw [if_neg (by omega), List.getD_eq_default _ _ (by omega)]

/-- Numbers without a fraction, read and printed. -/
def wholeNumber (s : String) : Option ℚ := some (atoi Arith.exact s)

def printWhole (x : Option ℚ) : String := x.elim "nan" fun q => ToString.toString q.num

def firstTicker : TradeEngineCfg (Option ℚ) where
  clip_ := 100
  threshold_ := some 1
  risk_cfg_ := { max_order_size_ := 150, max_position_ := 300, max_loss_ := some (-100) }

theorem main_spec_firstTicker :
    commandLine printWhole 1 .MAKER [firstTicker] =
        ["./trading_main", "1", "MAKER", "100", "1", "150", "300", "-100"] ∧
      ∃ S, main Arith.exact wholeNumber (fun _ _ => some 0)
          (commandLine printWhole 1 .MAKER [firstTicker]) = .ok S ∧
        S.client_id_ = 1 ∧ S.algo_type = .MAKER ∧
        ∀ t, S.ticker_cfg t = [firstTicker].getD t (.default Arith.exact) := by
  have hprintable : ∀ cfg ∈ [firstTicker], Printable wholeNumber printWhole cfg := by
    intro cfg hcfg
    rw [List.mem_singleton.mp hcfg]
    exact ⟨by decide, by decide, by decide, by decide +kernel, by decide +kernel⟩
  constructor
  · decide +kernel
  · exact (main_spec Arith.exact wholeNumber (fun _ _ => some 0)).2 printWhole 1 .MAKER
      [firstTicker] (by decide) (by decide) hprintable

end CommandLine

end TradingEcosystem
