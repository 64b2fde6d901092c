/-
The configuration loader of `src/simulator/configuration_loader.cpp`.

Every key of a section sets one field, and a table has a row for each: the section, the key,
the field and how the value is converted.  A field holds a value of its kind, so a
configuration is a function on the fields.  Four things are not rows: `random_v`, `ue_id`,
which starts a UE, the conversion of the variances, which is only made when `random_v` is set
so far, and the map file, which is chosen anew at every key of `[eNBConfig]`.

`none` is an exception of a conversion, or a key of a UE before the first `ue_id`.  The
`[Monitoring]` section, the log identifier, which is the time of day, and what is printed are
left out.
-/
import NetworkEmulator.Library.Runs
import NetworkEmulator.Model.ConfigurationText

namespace NetworkEmulator

/-! ### Fields and their rows -/

/-- What a field can hold. -/
inductive Kind where
  | int
  | real
  | bool
  | text
  deriving DecidableEq, Repr

/-- The values of a kind. -/
abbrev Kind.Ty : Kind → Type
  | .int => ℤ
  | .real => ℚ
  | .bool => Bool
  | .text => String

/-- How a value is converted for a field. -/
inductive Conversion : Kind → Type where
  | int : Conversion .int
  | real : Conversion .real
  /-- `std::stoi` into a `float`. -/
  | realOfInt : Conversion .real
  /-- `std::stof` into an `int`. -/
  | intOfReal : Conversion .int
  | scaled (factor : ℚ) : Conversion .real
  | flag : Conversion .bool
  | text : Conversion .text
  /-- `random_v ? std::stof(value) : 0`. -/
  | variance : Conversion .real

/-- The converted value: `none` is an exception, `some none` leaves the field. -/
def Conversion.apply : {k : Kind} → Conversion k → Bool → String → Option (Option k.Ty)
  | _, .int, _, value => (stoi value).map some
  | _, .real, _, value => (stof value).map some
  | _, .realOfInt, _, value => (stoi value).map fun n => some (n : ℚ)
  | _, .intOfReal, _, value => (stof value).map fun x => some (if 0 ≤ x then ⌊x⌋ else ⌈x⌉)
  | _, .scaled factor, _, value => (stof value).map fun x => some (factor * x)
  | _, .flag, _, value => some (flagOf value)
  | _, .text, _, value => some (some value)
  | _, .variance, randomV, value => if randomV then (stof value).map some else some (some 0)

/-- A row of the table of keys. -/
structure Row {F : Type} (kind : F → Kind) where
  mode : Mode
  key : String
  field : F
  conversion : Conversion (kind field)

/-- The effect of a key on the fields. -/
def storeKey {F : Type} [DecidableEq F] {kind : F → Kind} (rows : List (Row kind)) (randomV : Bool)
    (mode : Mode) (key value : String) (fields : (f : F) → (kind f).Ty) :
    Option ((f : F) → (kind f).Ty) :=
  match rows.find? fun row => row.mode = mode ∧ row.key = key with
  | none => some fields
  | some row => (row.conversion.apply randomV value).map fun
    | none => fields
    | some v => Function.update fields row.field v

/-! ### UEs -/

/-- The fields of `ue_full_config`. -/
inductive UeField where
  | nUes | ueType | ulQueueN | dlQueueN | nAntennas | alphaUl | nominalPuschP0 | txPowerUl
  | setUlPow | cqiPeriod | riPeriod | scalingFactor | priority | ulTarget | dlTarget
  | ulTrafficFile | dlTrafficFile | delay | varPerc | pktSize | trafficType | mobilityType
  | initPosX | initPosY | randomInit | speed | speedVar | maxDistance | timeTargetVar
  | timeTarget | deltaMetric | delayTMetric | betaMetric | pktDelayBudget | l4sEnabled
  | l4sTargetS | l4sRttMaxS | l4sMinThS | l4sRangeS | l4sK | l4sClassicGuardS | ueH | o2i
  | logFreq | logUe | logTraffic | logMobility | logQuality
  deriving DecidableEq, Repr

/-- What the fields of a UE hold. -/
def UeField.kind : UeField → Kind
  | .nUes | .ueType | .ulQueueN | .dlQueueN | .nAntennas | .cqiPeriod | .riPeriod | .pktSize
  | .trafficType | .mobilityType | .o2i | .logFreq => .int
  | .setUlPow | .randomInit | .l4sEnabled | .logUe | .logTraffic | .logMobility
  | .logQuality => .bool
  | .ulTrafficFile | .dlTrafficFile => .text
  | _ => .real

/-- A new `ue_full_config`.  The constructor leaves three fields without a value. -/
def UeField.initial (unset : (f : UeField) → f.kind.Ty) : (f : UeField) → f.kind.Ty
  | .nUes => (10 : ℤ)
  | .ueType => (1 : ℤ)
  | .ulQueueN => (-1 : ℤ)
  | .dlQueueN => (-1 : ℤ)
  | .nAntennas => (2 : ℤ)
  | .alphaUl => (7 / 10 : ℚ)
  | .nominalPuschP0 => (-60 : ℚ)
  | .txPowerUl => unset .txPowerUl
  | .setUlPow => unset .setUlPow
  | .cqiPeriod => (5 : ℤ)
  | .riPeriod => (5 : ℤ)
  | .scalingFactor => (1 : ℚ)
  | .priority => (1 : ℚ)
  | .ulTarget => (10 : ℚ)
  | .dlTarget => (50 : ℚ)
  | .ulTrafficFile => ("" : String)
  | .dlTrafficFile => ("" : String)
  | .delay => unset .delay
  | .varPerc => (50 : ℚ)
  | .pktSize => (500 : ℤ)
  | .trafficType => (0 : ℤ)
  | .mobilityType => (0 : ℤ)
  | .initPosX => (0 : ℚ)
  | .initPosY => (0 : ℚ)
  | .randomInit => true
  | .speed => (0 : ℚ)
  | .speedVar => (0 : ℚ)
  | .maxDistance => (1000 : ℚ)
  | .timeTargetVar => (0 : ℚ)
  | .timeTarget => (10 : ℚ)
  | .deltaMetric => (1 : ℚ)
  | .delayTMetric => (1 / 10 : ℚ)
  | .betaMetric => (1 / 2 : ℚ)
  | .pktDelayBudget => (35 / 100 : ℚ)
  | .l4sEnabled => false
  | .l4sTargetS => (15 / 1000 : ℚ)
  | .l4sRttMaxS => (1 / 10 : ℚ)
  | .l4sMinThS => (8 / 10000 : ℚ)
  | .l4sRangeS => (4 / 10000 : ℚ)
  | .l4sK => (2 : ℚ)
  | .l4sClassicGuardS => (1 / 1000 : ℚ)
  | .ueH => (3 / 2 : ℚ)
  | .o2i => (10 : ℤ)
  | .logFreq => (0 : ℤ)
  | .logUe => false
  | .logTraffic => false
  | .logMobility => false
  | .logQuality => false

/-- The keys of `[UE]`, but `random_v` and `ue_id`. -/
def ueRows : List (Row UeField.kind) :=
  [⟨.ue, "n_ues", .nUes, .int⟩,
   ⟨.ue, "ue_type", .ueType, .int⟩,
   ⟨.ue, "ul_queue_n", .ulQueueN, .int⟩,
   ⟨.ue, "dl_queue_n", .dlQueueN, .int⟩,
   ⟨.ue, "n_antennas", .nAntennas, .int⟩,
   ⟨.ue, "alpha_ul", .alphaUl, .real⟩,
   ⟨.ue, "nominal_pusch_p0", .nominalPuschP0, .real⟩,
   ⟨.ue, "tx_power_ul", .txPowerUl, .real⟩,
   ⟨.ue, "set_ul_pow", .setUlPow, .flag⟩,
   ⟨.ue, "cqi_period", .cqiPeriod, .int⟩,
   ⟨.ue, "ri_period", .riPeriod, .int⟩,
   ⟨.ue, "scaling_factor", .scalingFactor, .real⟩,
   ⟨.ue, "priority", .priority, .real⟩,
   ⟨.ue, "ul_target", .ulTarget, .real⟩,
   ⟨.ue, "dl_target", .dlTarget, .real⟩,
   ⟨.ue, "ul_traffic_file", .ulTrafficFile, .text⟩,
   ⟨.ue, "dl_traffic_file", .dlTrafficFile, .text⟩,
   ⟨.ue, "delay", .delay, .real⟩,
   ⟨.ue, "var_perc", .varPerc, .variance⟩,
   ⟨.ue, "pkt_size", .pktSize, .int⟩,
   ⟨.ue, "traffic_type", .trafficType, .int⟩,
   ⟨.ue, "mobility_type", .mobilityType, .intOfReal⟩,
   ⟨.ue, "pos_x", .initPosX, .real⟩,
   ⟨.ue, "pos_y", .initPosY, .real⟩,
   ⟨.ue, "random_init", .randomInit, .flag⟩,
   ⟨.ue, "speed", .speed, .scaled (1000 / 3600)⟩,
   ⟨.ue, "speed_var", .speedVar, .scaled (1000 / 3600)⟩,
   ⟨.ue, "max_distance", .maxDistance, .real⟩,
   ⟨.ue, "time_target_var", .timeTargetVar, .real⟩,
   ⟨.ue, "time_target", .timeTarget, .real⟩,
   ⟨.ue, "delta_metric", .deltaMetric, .real⟩,
   ⟨.ue, "delay_t_metric", .delayTMetric, .real⟩,
   ⟨.ue, "beta_metric", .betaMetric, .real⟩,
   ⟨.ue, "pkt_delay_budget", .pktDelayBudget, .real⟩,
   ⟨.ue, "l4s_dual_queue", .l4sEnabled, .flag⟩,
   ⟨.ue, "l4s_target_ms", .l4sTargetS, .scaled (1 / 1000)⟩,
   ⟨.ue, "l4s_rtt_max_ms", .l4sRttMaxS, .scaled (1 / 1000)⟩,
   ⟨.ue, "l4s_min_th_us", .l4sMinThS, .scaled (1 / 1000000)⟩,
   ⟨.ue, "l4s_range_us", .l4sRangeS, .scaled (1 / 1000000)⟩,
   ⟨.ue, "l4s_k", .l4sK, .real⟩,
   ⟨.ue, "l4s_classic_guard_ms", .l4sClassicGuardS, .scaled (1 / 1000)⟩,
   ⟨.ue, "ue_height", .ueH, .real⟩,
   ⟨.ue, "o2i", .o2i, .int⟩,
   ⟨.ue, "log_freq", .logFreq, .int⟩,
   ⟨.ue, "log_ue", .logUe, .flag⟩,
   ⟨.ue, "log_traffic", .logTraffic, .flag⟩,
   ⟨.ue, "log_mobility", .logMobility, .flag⟩,
   ⟨.ue, "log_quality", .logQuality, .flag⟩]

/-- `ue_full_config`, with the two copies of `random_v`. -/
structure UeFullConfig where
  id : String
  mobilityRandomV : Bool
  trafficRandomV : Bool
  fields : (f : UeField) → f.kind.Ty

/-! ### The other sections -/

/-- The fields of `configuration_loader` that its configurations are made of. -/
inductive LoaderField where
  | duration | period | progressLogPeriodS | multithreading | threads | verbose
  | scenarioType | streetWidth | antennaHeight | enbHeight
  | modulationM | targetBer | cqiMode | txPower | eNBGain | utGain | powerBoost | bandwidth
  | frequency
  | backhaulD | backhaulDVar | orderPkts
  | metricType | logFreq | logMac | mimoLayers | numerology | nOfdmSyms | nReFreq | maxRtxUl
  | maxRtxDl | mcsTables | schedulingMode | schedulingType | schedulingConfig | duplexingType
  | nDlSlots | nUlSlots | transitionC | ratioDlUl
  | interferenceUes | interferenceENBs | distanceInterference | interferedBandwidthRatio
  | thermalNoise | enbNoiseFigure | utNoiseFigure
  | airDelayVarUl | rtxPeriodUl | rtxPeriodVarUl | rtxProcDelayUl | rtxProcDelayVarUl
  | airDelayVarDl | rtxPeriodDl | rtxPeriodVarDl | rtxProcDelayDl | rtxProcDelayVarDl
  deriving DecidableEq, Repr

/-- What the fields hold. -/
def LoaderField.kind : LoaderField → Kind
  | .threads | .scenarioType | .modulationM | .cqiMode | .bandwidth | .metricType | .logFreq
  | .mimoLayers | .numerology | .nOfdmSyms | .nReFreq | .maxRtxUl | .maxRtxDl
  | .schedulingMode | .schedulingType | .schedulingConfig | .duplexingType | .nDlSlots
  | .nUlSlots | .transitionC | .interferenceUes | .interferenceENBs => .int
  | .multithreading | .verbose | .orderPkts | .logMac | .mcsTables => .bool
  | _ => .real

/-- The fields of a new loader. -/
def LoaderField.initial : (f : LoaderField) → f.kind.Ty
  | .duration => (10 : ℚ)
  | .period => (1 : ℚ)
  | .progressLogPeriodS => (10 : ℚ)
  | .multithreading => true
  | .threads => (0 : ℤ)
  | .verbose => false
  | .scenarioType => (0 : ℤ)
  | .streetWidth => (10 : ℚ)
  | .antennaHeight => (10 : ℚ)
  | .enbHeight => (15 : ℚ)
  | .modulationM => (1 : ℤ)
  | .targetBer => (5 / 100000 : ℚ)
  | .cqiMode => (0 : ℤ)
  | .txPower => (40 : ℚ)
  | .eNBGain => (18 : ℚ)
  | .utGain => (0 : ℚ)
  | .powerBoost => (0 : ℚ)
  | .bandwidth => (75000000 : ℤ)
  | .frequency => (3500000000 : ℚ)
  | .backhaulD => (5 / 1000 : ℚ)
  | .backhaulDVar => (1 / 1000 : ℚ)
  | .orderPkts => true
  | .metricType => (5 : ℤ)
  | .logFreq => (-1 : ℤ)
  | .logMac => false
  | .mimoLayers => (4 : ℤ)
  | .numerology => (2 : ℤ)
  | .nOfdmSyms => (14 : ℤ)
  | .nReFreq => (12 : ℤ)
  | .maxRtxUl => (4 : ℤ)
  | .maxRtxDl => (4 : ℤ)
  | .mcsTables => true
  | .schedulingMode => (1 : ℤ)
  | .schedulingType => (0 : ℤ)
  | .schedulingConfig => (1 : ℤ)
  | .duplexingType => (1 : ℤ)
  | .nDlSlots => (1 : ℤ)
  | .nUlSlots => (1 : ℤ)
  | .transitionC => (45 : ℤ)
  | .ratioDlUl => (1 / 2 : ℚ)
  | .interferenceUes => (10 : ℤ)
  | .interferenceENBs => (2 : ℤ)
  | .distanceInterference => (1500 : ℚ)
  | .interferedBandwidthRatio => (1 / 10 : ℚ)
  | .thermalNoise => (-107 : ℚ)
  | .enbNoiseFigure => (1 : ℚ)
  | .utNoiseFigure => (10 : ℚ)
  | .airDelayVarUl => (1 / 100 : ℚ)
  | .rtxPeriodUl => (4 : ℚ)
  | .rtxPeriodVarUl => (0 : ℚ)
  | .rtxProcDelayUl => (1 : ℚ)
  | .rtxProcDelayVarUl => (1 : ℚ)
  | .airDelayVarDl => (1 / 100 : ℚ)
  | .rtxPeriodDl => (4 : ℚ)
  | .rtxPeriodVarDl => (0 : ℚ)
  | .rtxProcDelayDl => (1 : ℚ)
  | .rtxProcDelayVarDl => (1 : ℚ)

/-- The keys of the other sections. -/
def fieldRows : List (Row LoaderField.kind) :=
  [⟨.global, "duration", .duration, .real⟩,
   ⟨.global, "period", .period, .real⟩,
   ⟨.global, "progress_log_period_s", .progressLogPeriodS, .real⟩,
   ⟨.global, "multithreading", .multithreading, .flag⟩,
   ⟨.global, "threads", .threads, .int⟩,
   ⟨.global, "verbose", .verbose, .flag⟩,
   ⟨.scenario, "scenario_type", .scenarioType, .int⟩,
   ⟨.eNBConfig, "modulation_m", .modulationM, .int⟩,
   ⟨.eNBConfig, "target_ber", .targetBer, .real⟩,
   ⟨.eNBConfig, "cqi_mode", .cqiMode, .int⟩,
   ⟨.eNBConfig, "tx_power", .txPower, .real⟩,
   ⟨.eNBConfig, "eNB_gain", .eNBGain, .real⟩,
   ⟨.eNBConfig, "UT_gain", .utGain, .realOfInt⟩,
   ⟨.eNBConfig, "power_boost", .powerBoost, .realOfInt⟩,
   ⟨.eNBConfig, "bandwidth", .bandwidth, .int⟩,
   ⟨.eNBConfig, "frequency", .frequency, .real⟩,
   ⟨.pdcpRlc, "backhaul_d", .backhaulD, .real⟩,
   ⟨.pdcpRlc, "backhaul_d_var", .backhaulDVar, .variance⟩,
   ⟨.pdcpRlc, "order_pkts", .orderPkts, .flag⟩,
   ⟨.macLayer, "metric_type", .metricType, .int⟩,
   ⟨.macLayer, "log_freq", .logFreq, .int⟩,
   ⟨.macLayer, "log_mac", .logMac, .flag⟩,
   ⟨.macLayer, "mimo_layers", .mimoLayers, .int⟩,
   ⟨.macLayer, "numerology", .numerology, .int⟩,
   ⟨.macLayer, "n_ofdm_syms", .nOfdmSyms, .int⟩,
   ⟨.macLayer, "n_re_freq", .nReFreq, .int⟩,
   ⟨.macLayer, "max_rtx_ul", .maxRtxUl, .int⟩,
   ⟨.macLayer, "max_rtx_dl", .maxRtxDl, .int⟩,
   ⟨.macLayer, "mcs_tables", .mcsTables, .flag⟩,
   ⟨.macLayer, "scheduling_mode", .schedulingMode, .int⟩,
   ⟨.macLayer, "scheduling_type", .schedulingType, .int⟩,
   ⟨.macLayer, "scheduling_config", .schedulingConfig, .int⟩,
   ⟨.macLayer, "duplexing_type", .duplexingType, .int⟩,
   ⟨.macLayer, "n_dl_slots", .nDlSlots, .int⟩,
   ⟨.macLayer, "n_ul_slots", .nUlSlots, .int⟩,
   ⟨.macLayer, "transition_c", .transitionC, .int⟩,
   ⟨.macLayer, "ratio_DL_UL", .ratioDlUl, .real⟩,
   ⟨.phyLayer, "interference_ues", .interferenceUes, .int⟩,
   ⟨.phyLayer, "interference_eNBs", .interferenceENBs, .int⟩,
   ⟨.phyLayer, "distance_interference", .distanceInterference, .real⟩,
   ⟨.phyLayer, "interfered_bandwidth_ratio", .interferedBandwidthRatio, .real⟩,
   ⟨.phyLayer, "thermal_noise", .thermalNoise, .real⟩,
   ⟨.phyLayer, "enb_noise_figure", .enbNoiseFigure, .realOfInt⟩,
   ⟨.phyLayer, "ut_noise_figure", .utNoiseFigure, .realOfInt⟩,
   ⟨.phyLayer, "air_delay_var_ul", .airDelayVarUl, .variance⟩,
   ⟨.phyLayer, "rtx_period_ul", .rtxPeriodUl, .real⟩,
   ⟨.phyLayer, "rtx_period_var_ul", .rtxPeriodVarUl, .variance⟩,
   ⟨.phyLayer, "rtx_proc_delay_ul", .rtxProcDelayUl, .real⟩,
   ⟨.phyLayer, "rtx_proc_delay_var_ul", .rtxProcDelayVarUl, .variance⟩,
   ⟨.phyLayer, "air_delay_var_dl", .airDelayVarDl, .variance⟩,
   ⟨.phyLayer, "rtx_period_dl", .rtxPeriodDl, .real⟩,
   ⟨.phyLayer, "rtx_period_var_dl", .rtxPeriodVarDl, .variance⟩,
   ⟨.phyLayer, "rtx_proc_delay_dl", .rtxProcDelayDl, .real⟩,
   ⟨.phyLayer, "rtx_proc_delay_var_dl", .rtxProcDelayVarDl, .variance⟩]

/-! ### The map file -/

/-- `SCENARIO_TYPE_MAP`. -/
def scenarioName : ℤ → Option String
  | 0 => some "URBAN_MICROCELL"
  | 1 => some "URBAN_MACROCELL"
  | 2 => some "RURAL_MACROCELL"
  | 3 => some "INDOOR_OPEN_OFFICE"
  | 4 => some "INDOOR_MIXED_OFFICE"
  | 5 => some "INDOOR_SHOPPING_MALL"
  | _ => none

/-- `AVAILABLE_FREQUENCIES`: the first and the others. -/
def availableFrequencies : String → Option (ℚ × List ℚ)
  | "URBAN_MICROCELL" => some (7 / 2, [49 / 10, 26, 28])
  | "URBAN_MACROCELL" => some (7 / 2, [49 / 10, 26, 28])
  | "RURAL_MACROCELL" => some (7 / 10, [8 / 10, 7 / 2])
  | "INDOOR_OPEN_OFFICE" => some (7 / 2, [26, 28])
  | "INDOOR_MIXED_OFFICE" => some (7 / 2, [26, 28])
  | "INDOOR_SHOPPING_MALL" => some (7 / 2, [26, 60])
  | _ => none

/-- A frequency with at most two decimals, without the zeros at its end. -/
def frequencyText (f : ℚ) : String :=
  let hundredths := ⌊100 * f + 1 / 2⌋.toNat
  let decimals := [hundredths / 10 % 10, hundredths % 10].map Nat.digitChar
  let decimals := (decimals.reverse.dropWhile (· = '0')).reverse
  toString (hundredths / 100) ++ (if decimals = [] then "" else "." ++ String.ofList decimals)

/-- `getClosestMapFile`, with the path of the maps; empty when there is none. -/
def getClosestMapFile (basePath : String) (scenarioType : ℤ) (frequency : ℚ) : String :=
  let freqGHz := frequency / 1000000000
  match scenarioName scenarioType with
  | none => ""
  | some name =>
    match availableFrequencies name with
    | none => ""
    | some (first, others) =>
      let closest := others.foldl (fun best f =>
        if |f - freqGHz| < |best - freqGHz| then f else best) first
      basePath ++ name ++ "_" ++ frequencyText closest ++ ".json"

/-! ### Loading -/

/-- What the loader does not get from the text: the path of the maps, and what a UE holds in
the fields its constructor leaves without a value. -/
structure LoaderEnv where
  basePath : String
  unset : (f : UeField) → f.kind.Ty

/-- `configuration_loader`. -/
structure ConfigurationLoader where
  ueCList : List UeFullConfig := []
  randomV : Bool := false
  mapFile : String := ""
  fields : (f : LoaderField) → f.kind.Ty := LoaderField.initial

namespace ConfigurationLoader

/-- A key of a `[UE]` section. -/
def ueEntry (env : LoaderEnv) (c : ConfigurationLoader) (key value : String) :
    Option ConfigurationLoader :=
  if key = "random_v" then some { c with randomV := (flagOf value).getD c.randomV }
  else if key = "ue_id" then
    some { c with ueCList := c.ueCList ++
      [{ id := value, mobilityRandomV := c.randomV, trafficRandomV := c.randomV
         fields := UeField.initial env.unset }] }
  else if ueRows.all fun row => row.key ≠ key then some c
  else
    match c.ueCList.getLast? with
    | none => none
    | some ue => (storeKey ueRows c.randomV .ue key value ue.fields).map fun fields =>
      { c with ueCList := c.ueCList.dropLast ++ [{ ue with fields := fields }] }

/-- A key of another section. -/
def fieldEntry (env : LoaderEnv) (c : ConfigurationLoader) (mode : Mode) (key value : String) :
    Option ConfigurationLoader :=
  (storeKey fieldRows c.randomV mode key value c.fields).map fun fields =>
    let c := { c with fields := fields }
    if mode = .eNBConfig then
      { c with
        mapFile := getClosestMapFile env.basePath (fields .scenarioType) (fields .frequency) }
    else c

/-- A key, in the section it stands in. -/
def entry (env : LoaderEnv) (c : ConfigurationLoader) (mode : Mode) (key value : String) :
    Option ConfigurationLoader :=
  if mode = .ue then c.ueEntry env key value else c.fieldEntry env mode key value

/-- A line, with the section it stands in. -/
def readLine (env : LoaderEnv) (s : Mode × ConfigurationLoader) (line : String) :
    Option (Mode × ConfigurationLoader) :=
  match NetworkEmulator.readLine line with
  | .header mode => some (mode, s.2)
  | .entry key value => (s.2.entry env s.1 key value).map (s.1, ·)
  | .skip => some s

/-- `load`, of a file that is there. -/
def load (env : LoaderEnv) (lines : List String) : Option ConfigurationLoader :=
  (Runs.runAll (readLine env) (.other, {}) lines).map Prod.snd

/-! ### What is loaded -/

/-- The fields `get_phy_enb_config` passes, in order. -/
def phyEnbConfig : List LoaderField :=
  [.txPower, .modulationM, .targetBer, .cqiMode, .frequency, .bandwidth, .mimoLayers, .metricType,
   .interferenceUes, .interferenceENBs, .distanceInterference, .interferedBandwidthRatio,
   .thermalNoise, .enbNoiseFigure, .utNoiseFigure, .eNBGain, .utGain, .powerBoost, .numerology]

/-- The fields `get_pdcp_config_ul` passes: the processing delay twice, its variance never. -/
def pdcpConfigUl : List LoaderField :=
  [.maxRtxUl, .airDelayVarUl, .rtxPeriodUl, .rtxPeriodVarUl, .rtxProcDelayUl, .rtxProcDelayUl,
   .backhaulD, .backhaulDVar, .orderPkts]

/-- The fields `get_pdcp_config_dl` passes. -/
def pdcpConfigDl : List LoaderField :=
  [.maxRtxDl, .airDelayVarDl, .rtxPeriodDl, .rtxPeriodVarDl, .rtxProcDelayDl, .rtxProcDelayDl,
   .backhaulD, .backhaulDVar, .orderPkts]

/-- The fields `get_scenario_config` passes, with the map file. -/
def scenarioConfig : List LoaderField :=
  [.scenarioType, .streetWidth, .antennaHeight, .enbHeight, .mcsTables]

/-- The fields `get_mac_config` passes. -/
def macConfig : List LoaderField :=
  [.mimoLayers, .numerology, .nReFreq, .nOfdmSyms, .bandwidth, .schedulingMode, .schedulingType,
   .schedulingConfig, .metricType, .duplexingType, .ratioDlUl]

/-- The fields `get_tdd_config` passes. -/
def tddConfig : List LoaderField := [.nDlSlots, .nUlSlots, .transitionC]

end ConfigurationLoader

end NetworkEmulator
