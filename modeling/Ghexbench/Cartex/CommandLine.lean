import Ghexbench.Cli.Entries

/-!
# The command line of the cartex benchmark

`main` declares its options, parses the command line and reads the options one after the other: the numbers of
threads, then the domain and the grids of the decomposition, then what the runtime wants to know. Reading an
option ends the program when it is not there or has the wrong number of values.
-/

namespace Ghexbench.Cartex

open Ghexbench.Common Ghexbench.Cli

/-- `options::operator()` with a number of values. -/
def withoutDefaults (name description variableName : String) (nargs : ℕ) : OptionDecl :=
  ⟨str name, str description, str variableName, [], nargs⟩

/-- `options::operator()` with default values. -/
def withDefaults (name description variableName : String) (defaultValues : List ℤ) : OptionDecl :=
  ⟨str name, str description, str variableName, defaultValues.map decimal, defaultValues.length⟩

/-- The options of `main`, and the one that the runtime adds. -/
def mainOptions : Options where
  options := [
    withoutDefaults "domain" "local domain size (default: 64 64 64)" "X Y Z" 3,
    withoutDefaults "global-domain" "global domain size" "X Y Z" 3,
    withoutDefaults "nrep" "number of repetitions (default: 10)" "r" 1,
    withoutDefaults "time" "execution time" "t" 1,
    withDefaults "nfields" "number of fields" "n" [1],
    withDefaults "halo" "halo size" "h" [1],
    withoutDefaults "MPICart" "MPI cartesian global grid" "NX NY NZ" 3,
    withoutDefaults "order" "cartesian order (default: XYZ)" "IJK" 1,
    withoutDefaults "node" "node grid" "NX NY NZ" 3,
    withoutDefaults "socket" "socket grid" "NX NY NZ" 3,
    withoutDefaults "numa" "numa-node grid" "NX NY NZ" 3,
    withoutDefaults "l3" "l3-cache grid" "NX NY NZ" 3,
    withoutDefaults "core" "core grid" "NX NY NZ" 3,
    withoutDefaults "hwthread" "hardware-thread grid" "NX NY NZ" 3,
    withDefaults "thread" "software-thread grid" "NX NY NZ" [1, 1, 1]]
  flags := [
    ⟨str "print", str "print decomposition"⟩,
    ⟨str "check", str "check results"⟩,
    ⟨str "config", str "print configuration"⟩,
    ⟨str "MPI-datatypes", str "use MPI Datatypes"⟩]

/-- `hwcart_order_t`. -/
inductive Order
  | xyz
  | xzy
  | zyx
  | yzx
  | zxy
  | yxz

/-- `decomposition::parse_order`. -/
def parseOrder (orderStr : Str) : Order :=
  if orderStr = str "XYZ" then .xyz
  else if orderStr = str "XZY" then .xzy
  else if orderStr = str "ZYX" then .zyx
  else if orderStr = str "YZX" then .yzx
  else if orderStr = str "ZXY" then .zxy
  else if orderStr = str "YXZ" then .yxz
  else .xyz

/-- `std::array<int, 3>`, in which extraction may leave a value unset. -/
abbrev Ints := List (Option ℤ)

/-- What the ranks are arranged by: an MPI communicator, or the levels of the hardware. -/
inductive Arrangement
  | cart (dims : Ints)
  | hardware (order : Order) (nodes sockets numas l3s cores hwthreads : Option Ints)

/-- The arguments of `decomposition`. -/
structure DecompositionArgs where
  arrangement : Arrangement
  threads : Ints
  domain : Ints
  isLocal : Bool

/-- What `runtime` takes from the options, with times in `τ`. -/
structure RuntimeArgs (τ : Type) where
  numReps : Option ℤ
  useTimer : Bool
  time : τ
  numFields : Option ℤ
  checkRes : Bool
  halo : Option ℤ
  useMpiDatatypes : Bool

/-- What `main` does: it prints its configuration or the decomposition, or it runs. -/
inductive Plan (τ : Type)
  | config
  | print (decomposition : DecompositionArgs)
  | run (decomposition : DecompositionArgs) (runtime : RuntimeArgs τ)

variable {τ : Type} (toDouble : Str → τ) (zero : τ) (values : OptionsValues)

/-- A grid that is read if it is there. -/
def readGrid (name : Str) : Except Exit (Option Ints) :=
  if values.hasOption name then some <$> values.get (parseArray 3) name else pure none

/-- The domain: the global one if it is there. -/
def readDomain : Except Exit Ints :=
  if values.hasOption (str "global-domain") then values.get (parseArray 3) (str "global-domain")
  else values.getOr (parseArray 3) (str "domain") [some 64, some 64, some 64]

/-- The arrangement of the ranks. -/
def readArrangement : Except Exit Arrangement :=
  if values.hasOption (str "MPICart") then .cart <$> values.get (parseArray 3) (str "MPICart")
  else do
    let order ← values.getOr parseString (str "order") (str "XYZ")
    let nodes ← readGrid values (str "node")
    let sockets ← readGrid values (str "socket")
    let numas ← readGrid values (str "numa")
    let l3s ← readGrid values (str "l3")
    let cores ← readGrid values (str "core")
    let hwthreads ← readGrid values (str "hwthread")
    return .hardware (parseOrder order) nodes sockets numas l3s cores hwthreads

/-- The constructor of `runtime`. -/
def readRuntime : Except Exit (RuntimeArgs τ) := do
  let useTimer := values.hasOption (str "time")
  let numReps ← (if useTimer then values.getOr parseInt (str "nrep") (some 0)
    else values.getOr parseInt (str "nrep") (some 10))
  let time ← values.getOr (parseAs toDouble) (str "time") zero
  let numFields ← values.get parseInt (str "nfields")
  let halo ← values.get parseInt (str "halo")
  return ⟨numReps, useTimer, time, numFields, values.set (str "check"), halo,
    values.set (str "MPI-datatypes")⟩

/-- `main` behind `parse`. -/
def readMain : Except Exit (Plan τ) := do
  let threads ← values.get (parseArray 3) (str "thread")
  if values.set (str "config") then return .config
  let arrangement ← readArrangement values
  let domain ← readDomain values
  let decomposition := ⟨arrangement, threads, domain, !values.hasOption (str "global-domain")⟩
  if values.set (str "print") then return .print decomposition
  return .run decomposition (← readRuntime toDouble zero values)

section Requests

/-- A value of type `int`. -/
abbrev CInt := { v : ℤ // IsInt v }

/-- The argument of an option with one value. -/
def intTexts (v : CInt) : List Str := [decimal v]

/-- Three values of type `int`. -/
structure Triple where
  x : CInt
  y : CInt
  z : CInt

/-- The arguments of an option with three values. -/
def Triple.texts (t : Triple) : List Str := [decimal t.x, decimal t.y, decimal t.z]

/-- An array with three values. -/
def Triple.ints (t : Triple) : Ints := [some t.x.1, some t.y.1, some t.z.1]

/-- The name of an order. -/
def Order.text : Order → Str
  | .xyz => str "XYZ"
  | .xzy => str "XZY"
  | .zyx => str "ZYX"
  | .yzx => str "YZX"
  | .zxy => str "ZXY"
  | .yxz => str "YXZ"

/-- What a user can ask for. A time is any text that is no option. -/
structure Request where
  domain : Option Triple
  globalDomain : Option Triple
  nrep : Option CInt
  time : Option { s : Str // isDashed s = false }
  nfields : Option CInt
  halo : Option CInt
  mpiCart : Option Triple
  order : Option Order
  nodes : Option Triple
  sockets : Option Triple
  numas : Option Triple
  l3s : Option Triple
  cores : Option Triple
  hwthreads : Option Triple
  threads : Option Triple
  print : Bool
  check : Bool
  config : Bool
  mpiDatatypes : Bool

namespace Request

variable (r : Request)

/-- The options. -/
def entries : List (Str × Option (List Str)) := [
  (str "domain", r.domain.map Triple.texts),
  (str "global-domain", r.globalDomain.map Triple.texts),
  (str "nrep", r.nrep.map intTexts),
  (str "time", r.time.map fun s => [s.1]),
  (str "nfields", r.nfields.map intTexts),
  (str "halo", r.halo.map intTexts),
  (str "MPICart", r.mpiCart.map Triple.texts),
  (str "order", r.order.map fun o => [o.text]),
  (str "node", r.nodes.map Triple.texts),
  (str "socket", r.sockets.map Triple.texts),
  (str "numa", r.numas.map Triple.texts),
  (str "l3", r.l3s.map Triple.texts),
  (str "core", r.cores.map Triple.texts),
  (str "hwthread", r.hwthreads.map Triple.texts),
  (str "thread", r.threads.map Triple.texts)]

/-- The flags. -/
def flags : List (Str × Bool) := [
  (str "print", r.print), (str "check", r.check), (str "config", r.config),
  (str "MPI-datatypes", r.mpiDatatypes)]

/-- The command line for the request. -/
def groups : List Group := groupsOf r.flags r.entries

variable {τ : Type} (toDouble : Str → τ) (zero : τ)

/-- An MPI communicator has precedence over the levels of the hardware. -/
def arrangement : Arrangement :=
  match r.mpiCart with
  | some dims => .cart dims.ints
  | none => .hardware (r.order.getD .xyz) (r.nodes.map Triple.ints) (r.sockets.map Triple.ints)
    (r.numas.map Triple.ints) (r.l3s.map Triple.ints) (r.cores.map Triple.ints) (r.hwthreads.map Triple.ints)

/-- A global domain has precedence over a local one. -/
def decomposition : DecompositionArgs where
  arrangement := r.arrangement
  threads := (r.threads.map Triple.ints).getD [some 1, some 1, some 1]
  domain := ((r.globalDomain.or r.domain).map Triple.ints).getD [some 64, some 64, some 64]
  isLocal := r.globalDomain.isNone

/-- Without a time there are ten repetitions. -/
def runtime : RuntimeArgs τ where
  numReps := (r.nrep.map Subtype.val).getD (if r.time.isSome then 0 else 10)
  useTimer := r.time.isSome
  time := (r.time.map fun s => toDouble s.1).getD zero
  numFields := (r.nfields.map Subtype.val).getD 1
  checkRes := r.check
  halo := (r.halo.map Subtype.val).getD 1
  useMpiDatatypes := r.mpiDatatypes

/-- What the program does when it is asked for. -/
def plan : Plan τ :=
  if r.config then .config
  else if r.print then .print r.decomposition
  else .run r.decomposition (r.runtime toDouble zero)

end Request

end Requests

section Fits

/-- The declared names are distinct. -/
theorem distinct_mainOptions : mainOptions.Distinct := ⟨by decide, by decide⟩

/-- The entry of an option that is written with as many values as it is declared with. -/
theorem fits_map {α : Type*} {opt : OptionDecl} {texts : α → List Str}
    (htexts : ∀ a, (texts a).length = opt.nargs ∧ ∀ value ∈ texts a, isDashed value = false) (a : Option α) :
    opt.Fits (opt.name, a.map texts) := by
  refine ⟨rfl, fun l hl => ?_⟩
  obtain ⟨b, -, rfl⟩ := Option.map_eq_some_iff.mp hl
  exact htexts b

/-- The entry of an option with three values. -/
theorem fits_triple {opt : OptionDecl} (hnargs : opt.nargs = 3) (t : Option Triple) :
    opt.Fits (opt.name, t.map Triple.texts) := by
  apply fits_map
  refine fun t => ⟨hnargs.symm, fun value hvalue => ?_⟩
  simp only [Triple.texts, List.mem_cons, List.not_mem_nil, or_false] at hvalue
  rcases hvalue with rfl | rfl | rfl <;> exact isDashed_decimal _

/-- The entry of an option with a single value. -/
theorem fits_single {α : Type*} {opt : OptionDecl} (hnargs : opt.nargs = 1) {text : α → Str}
    (htext : ∀ a, isDashed (text a) = false) (a : Option α) :
    opt.Fits (opt.name, a.map fun b => [text b]) := by
  apply fits_map
  exact fun b => ⟨hnargs.symm, fun _ hvalue => List.mem_singleton.mp hvalue ▸ htext b⟩

/-- The name of an order is no option. -/
theorem Order.isDashed_text (o : Order) : isDashed o.text = false := by
  cases o <;> rfl

/-- The name of an order is read as the order. -/
theorem Order.parseOrder_text (o : Order) : parseOrder o.text = o := by
  cases o <;> rfl

/-- A request fits the declared options. -/
theorem Request.fits (r : Request) : mainOptions.Fits r.flags r.entries where
  flags := rfl
  entries := by
    have hint (v : Option CInt) {opt : OptionDecl} (hnargs : opt.nargs = 1) :
        opt.Fits (opt.name, v.map intTexts) := fits_single hnargs (fun v : CInt => isDashed_decimal v) v
    exact .cons (fits_triple rfl _) <| .cons (fits_triple rfl _) <| .cons (hint _ rfl) <|
      .cons (fits_single rfl (fun s => s.2) _) <| .cons (hint _ rfl) <| .cons (hint _ rfl) <|
      .cons (fits_triple rfl _) <| .cons (fits_single rfl Order.isDashed_text _) <|
      .cons (fits_triple rfl _) <| .cons (fits_triple rfl _) <| .cons (fits_triple rfl _) <|
      .cons (fits_triple rfl _) <| .cons (fits_triple rfl _) <| .cons (fits_triple rfl _) <|
      .cons (fits_triple rfl _) .nil

/-- What is found in the values for a request. -/
structure Request.Given (r : Request) (values : OptionsValues) : Prop where
  domain : values.map (str "domain") = r.domain.map Triple.texts
  globalDomain : values.map (str "global-domain") = r.globalDomain.map Triple.texts
  nrep : values.map (str "nrep") = r.nrep.map intTexts
  time : values.map (str "time") = r.time.map fun s => [s.1]
  nfields : values.map (str "nfields") = (r.nfields.map intTexts).or (some [decimal 1])
  halo : values.map (str "halo") = (r.halo.map intTexts).or (some [decimal 1])
  mpiCart : values.map (str "MPICart") = r.mpiCart.map Triple.texts
  order : values.map (str "order") = r.order.map fun o => [o.text]
  nodes : values.map (str "node") = r.nodes.map Triple.texts
  sockets : values.map (str "socket") = r.sockets.map Triple.texts
  numas : values.map (str "numa") = r.numas.map Triple.texts
  l3s : values.map (str "l3") = r.l3s.map Triple.texts
  cores : values.map (str "core") = r.cores.map Triple.texts
  hwthreads : values.map (str "hwthread") = r.hwthreads.map Triple.texts
  threads : values.map (str "thread") =
    (r.threads.map Triple.texts).or (some [decimal 1, decimal 1, decimal 1])
  print : values.set (str "print") = r.print
  check : values.set (str "check") = r.check
  config : values.set (str "config") = r.config
  mpiDatatypes : values.set (str "MPI-datatypes") = r.mpiDatatypes

/-- What parsing the groups of a request returns. -/
theorem Request.given (r : Request) {values : OptionsValues} (h : mainOptions.Means r.groups values) :
    r.Given values := by
  have hlookup := r.fits.lookup distinct_mainOptions h
  have hflags := r.fits.lookup_flags distinct_mainOptions h
  simp only [Request.entries, mainOptions, withoutDefaults, withDefaults, OptionDecl.default,
    List.forall₂_cons, List.Forall₂.nil, and_true, if_true, Option.or_none] at hlookup
  simp only [Request.flags, List.forall_mem_cons] at hflags
  obtain ⟨hdomain, hglobal, hnrep, htime, hnfields, hhalo, hcart, horder, hnode, hsocket, hnuma, hl3, hcore,
    hhwthread, hthread⟩ := hlookup
  obtain ⟨hprint, hcheck, hconfig, hdatatypes, -⟩ := hflags
  exact ⟨hdomain, hglobal, hnrep, htime, hnfields, hhalo, hcart, horder, hnode, hsocket, hnuma, hl3, hcore,
    hhwthread, hthread, hprint, hcheck, hconfig, hdatatypes⟩

end Fits

section Reading

variable {r : Request} {values : OptionsValues}

/-- Three values are read. -/
theorem parseArray_texts (t : Triple) : parseArray 3 t.texts = .ok t.ints := by
  rw [parseArray, parseArrayAs_eq_ok_iff]
  refine ⟨rfl, ?_⟩
  simp only [Triple.texts, Triple.ints, List.map_cons, List.map_nil, parseValue_decimal t.x.2,
    parseValue_decimal t.y.2, parseValue_decimal t.z.2]

/-- A value is read. -/
theorem parseInt_texts (v : CInt) : parseInt (intTexts v) = .ok (some v.1) :=
  parseAs_eq_ok_iff.mpr ⟨_, rfl, parseValue_decimal v.2⟩

/-- The name of an order is read. -/
theorem parseString_text (o : Order) : parseString [o.text] = .ok o.text := by
  cases o <;> rfl

/-- A grid is read. -/
theorem readGrid_eq {name : Str} {t : Option Triple} (hmap : values.map name = t.map Triple.texts) :
    readGrid values name = .ok (t.map Triple.ints) := by
  rw [readGrid, hasOption_of_map hmap]
  cases t with
  | none => rfl
  | some t =>
    rw [Option.isSome_some, if_pos rfl, get_of_map parseArray_texts hmap]
    rfl

namespace Request.Given

/-- The domain of a request is read. -/
theorem readDomain_eq (h : r.Given values) :
    readDomain values = .ok (((r.globalDomain.or r.domain).map Triple.ints).getD [some 64, some 64, some 64]) := by
  have hglobal := h.globalDomain
  rw [readDomain, hasOption_of_map hglobal]
  cases hcase : r.globalDomain with
  | none =>
    rw [Option.none_or]
    exact getOr_of_map parseArray_texts h.domain _
  | some t =>
    rw [hcase] at hglobal
    exact get_of_map parseArray_texts hglobal

/-- The arrangement of a request is read. -/
theorem readArrangement_eq (h : r.Given values) : readArrangement values = .ok r.arrangement := by
  have hcart := h.mpiCart
  rw [readArrangement, hasOption_of_map hcart, Request.arrangement]
  cases hcase : r.mpiCart with
  | some dims =>
    rw [hcase] at hcart
    rw [Option.isSome_some, if_pos rfl, get_of_map parseArray_texts hcart]
    rfl
  | none =>
    have horder := getOr_of_map parseString_text h.order (str "XYZ")
    have hparse : parseOrder ((r.order.map Order.text).getD (str "XYZ")) = r.order.getD .xyz := by
      cases r.order with
      | none => rfl
      | some o => exact o.parseOrder_text
    rw [Option.isSome_none, if_neg Bool.false_ne_true, horder, readGrid_eq h.nodes, readGrid_eq h.sockets,
      readGrid_eq h.numas, readGrid_eq h.l3s, readGrid_eq h.cores, readGrid_eq h.hwthreads, ← hparse]
    rfl

variable {τ : Type} (toDouble : Str → τ) (zero : τ)

/-- What the runtime takes from a request. -/
theorem readRuntime_eq (h : r.Given values) :
    readRuntime toDouble zero values = .ok (r.runtime toDouble zero) := by
  have htime := getOr_of_map (fun s : { s : Str // isDashed s = false } =>
    show parseAs toDouble [s.1] = .ok (toDouble s.1) from rfl) h.time zero
  have hone : parseInt [decimal 1] = .ok (some 1) := parseInt_texts ⟨1, by decide⟩
  have hnrep (d : ℤ) : values.getOr parseInt (str "nrep") (some d) = .ok (some ((r.nrep.map Subtype.val).getD d)) := by
    rw [getOr_of_map parseInt_texts h.nrep]
    cases r.nrep <;> rfl
  have hnfields : values.get parseInt (str "nfields") = .ok (some ((r.nfields.map Subtype.val).getD 1)) := by
    rw [get_of_map_or parseInt_texts hone h.nfields]
    cases r.nfields <;> rfl
  have hhalo : values.get parseInt (str "halo") = .ok (some ((r.halo.map Subtype.val).getD 1)) := by
    rw [get_of_map_or parseInt_texts hone h.halo]
    cases r.halo <;> rfl
  simp only [readRuntime, Request.runtime, hnrep, htime, hnfields, hhalo, h.check, h.mpiDatatypes,
    hasOption_of_map h.time]
  cases r.time.isSome <;> rfl

/-- What `main` does for a request. -/
theorem readMain_eq (h : r.Given values) : readMain toDouble zero values = .ok (r.plan toDouble zero) := by
  have hthreads := get_of_map_or parseArray_texts (show parseArray 3 _ = .ok [some 1, some 1, some 1] from rfl)
    h.threads
  have hlocal : (!values.hasOption (str "global-domain")) = r.globalDomain.isNone := by
    rw [hasOption_of_map h.globalDomain, Option.not_isSome]
  rw [readMain, hthreads, h.readArrangement_eq, h.readDomain_eq, h.readRuntime_eq toDouble zero, h.config,
    h.print, hlocal, Request.plan]
  cases r.config <;> cases r.print <;> rfl

end Request.Given
end Reading

section Exits

variable {values : OptionsValues} {name : Str} {opt : OptionDecl}

/-- An array of three values is parsed. -/
theorem exists_parseArray_of_find (h : mainOptions.Sized values) (hfind : mainOptions.find name = some opt)
    (hnargs : opt.nargs = 3) (l : List Str) (hl : values.map name = some l) :
    ∃ ints, parseArray 3 l = .ok ints :=
  exists_parseArray ((h.length_eq hfind hl).trans hnargs)

/-- A single value is parsed. -/
theorem exists_parseAs_of_find {α : Type} (convert : Str → α) (h : mainOptions.Sized values)
    (hfind : mainOptions.find name = some opt) (hnargs : opt.nargs = 1) (l : List Str)
    (hl : values.map name = some l) : ∃ b, parseAs convert l = .ok b :=
  exists_parseAs ((h.length_eq hfind hl).trans hnargs)

/-- Every grid is read. -/
theorem exists_readGrid (h : mainOptions.Sized values) (hfind : mainOptions.find name = some opt)
    (hnargs : opt.nargs = 3) : ∃ grid, readGrid values name = .ok grid := by
  rw [readGrid]
  split
  · next hhas =>
    obtain ⟨ints, hints⟩ := exists_get (exists_parseArray_of_find h hfind hnargs) hhas
    exact ⟨some ints, by rw [hints]; rfl⟩
  · exact ⟨none, rfl⟩

/-- The domain is read. -/
theorem exists_readDomain (h : mainOptions.Sized values) : ∃ domain, readDomain values = .ok domain := by
  rw [readDomain]
  split
  · next hhas => exact exists_get (exists_parseArray_of_find h rfl rfl) hhas
  · exact exists_getOr (exists_parseArray_of_find h rfl rfl) _

/-- The arrangement is read. -/
theorem exists_readArrangement (h : mainOptions.Sized values) :
    ∃ arrangement, readArrangement values = .ok arrangement := by
  rw [readArrangement]
  split
  · next hhas =>
    obtain ⟨dims, hdims⟩ := exists_get (exists_parseArray_of_find h rfl rfl) hhas
    exact ⟨.cart dims, by rw [hdims]; rfl⟩
  · obtain ⟨order, horder⟩ : ∃ order, values.getOr parseString (str "order") (str "XYZ") = .ok order :=
      exists_getOr (exists_parseAs_of_find parseWord h rfl rfl) _
    obtain ⟨nodes, hnodes⟩ : ∃ grid, readGrid values (str "node") = .ok grid := exists_readGrid h rfl rfl
    obtain ⟨sockets, hsockets⟩ : ∃ grid, readGrid values (str "socket") = .ok grid := exists_readGrid h rfl rfl
    obtain ⟨numas, hnumas⟩ : ∃ grid, readGrid values (str "numa") = .ok grid := exists_readGrid h rfl rfl
    obtain ⟨l3s, hl3s⟩ : ∃ grid, readGrid values (str "l3") = .ok grid := exists_readGrid h rfl rfl
    obtain ⟨cores, hcores⟩ : ∃ grid, readGrid values (str "core") = .ok grid := exists_readGrid h rfl rfl
    obtain ⟨hwthreads, hhwthreads⟩ : ∃ grid, readGrid values (str "hwthread") = .ok grid :=
      exists_readGrid h rfl rfl
    rw [horder, hnodes, hsockets, hnumas, hl3s, hcores, hhwthreads]
    exact ⟨_, rfl⟩

variable {τ : Type} (toDouble : Str → τ) (zero : τ)

/-- What the runtime takes from the options is read. -/
theorem exists_readRuntime (h : mainOptions.Sized values) (hnfields : values.hasOption (str "nfields") = true)
    (hhalo : values.hasOption (str "halo") = true) :
    ∃ runtime, readRuntime toDouble zero values = .ok runtime := by
  have hint {name : Str} {opt : OptionDecl} (hfind : mainOptions.find name = some opt) (hnargs : opt.nargs = 1) :=
    exists_parseAs_of_find parseValue h hfind hnargs
  obtain ⟨numReps, hnumReps⟩ : ∃ numReps, (if values.hasOption (str "time") then
      values.getOr parseInt (str "nrep") (some 0) else values.getOr parseInt (str "nrep") (some 10)) =
        .ok numReps := by
    split <;> exact exists_getOr (hint rfl rfl) _
  obtain ⟨time, htime⟩ : ∃ time, values.getOr (parseAs toDouble) (str "time") zero = .ok time :=
    exists_getOr (exists_parseAs_of_find toDouble h rfl rfl) _
  obtain ⟨numFields, hnumFields⟩ : ∃ numFields, values.get parseInt (str "nfields") = .ok numFields :=
    exists_get (hint rfl rfl) hnfields
  obtain ⟨halo, hhalo⟩ : ∃ halo, values.get parseInt (str "halo") = .ok halo := exists_get (hint rfl rfl) hhalo
  simp only [readRuntime, hnumReps, htime, hnumFields, hhalo]
  exact ⟨_, rfl⟩

/-- `main` reads all its options. -/
theorem exists_readMain {command : Str} {args : List Str} (h : mainOptions.parse (command :: args) = .ok values) :
    ∃ plan, readMain toDouble zero values = .ok plan := by
  have hsized := sized_of_parse distinct_mainOptions (by decide) h
  have hdefault {name : Str} {opt : OptionDecl} (hfind : mainOptions.find name = some opt)
      (hne : opt.defaultValues ≠ []) (hnargs : opt.defaultValues.length = opt.nargs) :
      values.hasOption name = true := hasOption_of_parse distinct_mainOptions hfind hne hnargs h
  obtain ⟨threads, hthreads⟩ : ∃ threads, values.get (parseArray 3) (str "thread") = .ok threads :=
    exists_get (exists_parseArray_of_find hsized rfl rfl) (hdefault rfl (List.cons_ne_nil _ _) rfl)
  obtain ⟨arrangement, harrangement⟩ := exists_readArrangement hsized
  obtain ⟨domain, hdomain⟩ := exists_readDomain hsized
  obtain ⟨runtime, hruntime⟩ := exists_readRuntime toDouble zero hsized
    (hdefault rfl (List.cons_ne_nil _ _) rfl) (hdefault rfl (List.cons_ne_nil _ _) rfl)
  rw [readMain, hthreads, harrangement, hdomain, hruntime]
  cases values.set (str "config") <;> cases values.set (str "print") <;> exact ⟨_, rfl⟩

end Exits

/-- Every command line that is accepted is read to its end, and what main does for a request does not depend on
the order of its options. -/
theorem command_line_exact {τ : Type} (toDouble : Str → τ) (zero : τ) (command : Str) :
    (∀ args values, mainOptions.parse (command :: args) = .ok values →
      ∃ plan, readMain toDouble zero values = .ok plan) ∧
    ∀ (r : Request) (groups : List Group), groups.Perm r.groups →
      ∃ values, mainOptions.parse (command :: render groups) = .ok values ∧
        readMain toDouble zero values = .ok (r.plan toDouble zero) := by
  constructor
  · intro args values h
    exact exists_readMain toDouble zero h
  · intro r groups hperm
    have haccepts := r.fits.accepts distinct_mainOptions
    obtain ⟨values, hparse, hmeans⟩ := parse_render distinct_mainOptions command (haccepts.perm hperm)
    have hgiven := r.given (hmeans.perm hperm.symm)
    exact ⟨values, hparse, hgiven.readMain_eq toDouble zero⟩

/-- A time, a domain and a check. -/
theorem command_line_exact_time : ∃ values, mainOptions.parse (str "cartex" :: [str "--time", str "2.5",
      str "--domain", str "4", str "5", str "-6", str "--check"]) = .ok values ∧
    readMain id [] values = .ok (.run
      ⟨.hardware .xyz none none none none none none, [some 1, some 1, some 1], [some 4, some 5, some (-6)], true⟩
      ⟨some 0, true, str "2.5", some 1, true, some 1, false⟩) ∧
    ∃ plan, readMain id [] values = .ok plan := by
  obtain ⟨values, hparse, hread⟩ := (command_line_exact id [] (str "cartex")).2
    { domain := some ⟨⟨4, by decide⟩, ⟨5, by decide⟩, ⟨-6, by decide⟩⟩, globalDomain := none, nrep := none,
      time := some ⟨str "2.5", rfl⟩, nfields := none, halo := none, mpiCart := none, order := none,
      nodes := none, sockets := none, numas := none, l3s := none, cores := none, hwthreads := none,
      threads := none, print := false, check := true, config := false, mpiDatatypes := false }
    _ (List.reverse_perm _)
  exact ⟨values, hparse, hread, (command_line_exact id [] (str "cartex")).1 _ _ hparse⟩

end Ghexbench.Cartex
