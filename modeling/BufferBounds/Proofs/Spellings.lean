import BufferBounds.Json.Function
import Mathlib.Data.List.Nodup
import Mathlib.Data.List.Perm.Basic

/-!
# Spellings of functions

The JSON form of a function can be written in many ways: the fields of every object in any order,
with fields of other names among them, and without a branch condition that is null. Whichever of
them is read, it gives the same function. A reader looks only for the fields it knows, and what it
finds of these is, again, a spelling of what was written.
-/

namespace BufferBounds

namespace Json

/-! ## Spellings of values -/

mutual

/-- The second value is a spelling of the first. -/
inductive Respelled : Json → Json → Prop where
  /-- null has one spelling -/
  | null : Respelled .null .null
  /-- a truth value has one spelling -/
  | bool (b : Bool) : Respelled (.bool b) (.bool b)
  /-- an integer has one spelling -/
  | integer (n : Int) : Respelled (.integer n) (.integer n)
  /-- another number has one spelling -/
  | decimal (digits : String) : Respelled (.decimal digits) (.decimal digits)
  /-- a text has one spelling -/
  | text (s : String) : Respelled (.text s) (.text s)
  /-- the items of an array keep their places -/
  | array {items items' : List Json} (h : RespelledItems items items') :
    Respelled (.array items) (.array items')
  /-- fields whose names are not those of the object are added, and all are put in any order -/
  | object {fields kept extra all : List (String × Json)} (h : RespelledFields fields kept)
    (unknown : ∀ field ∈ extra, field.1 ∉ fields.map Prod.fst)
    (order : (kept ++ extra).Perm all) : Respelled (.object fields) (.object all)

/-- The second items are spellings of the first. -/
inductive RespelledItems : List Json → List Json → Prop where
  /-- no items -/
  | nil : RespelledItems [] []
  /-- one more item -/
  | cons {j j' : Json} {items items' : List Json} (h : Respelled j j')
    (hs : RespelledItems items items') : RespelledItems (j :: items) (j' :: items')

/-- The second fields hold spellings of what the first hold; only a branch has a condition, and
where it is null it may be left out. -/
inductive RespelledFields : List (String × Json) → List (String × Json) → Prop where
  /-- no fields -/
  | nil : RespelledFields [] []
  /-- one more field -/
  | cons {name : String} {j j' : Json} {fields fields' : List (String × Json)}
    (h : Respelled j j') (hs : RespelledFields fields fields') :
    RespelledFields ((name, j) :: fields) ((name, j') :: fields')
  /-- a condition that is left out -/
  | omitted {fields fields' : List (String × Json)} (hs : RespelledFields fields fields') :
    RespelledFields (("condition", .null) :: fields) fields'

end

/-- Nothing is added. -/
theorem Respelled.of_perm {fields kept all : List (String × Json)} (h : RespelledFields fields kept)
    (order : kept.Perm all) : Respelled (.object fields) (.object all) :=
  .object h (fun _ hmem => absurd hmem List.not_mem_nil) ((List.append_nil kept).symm ▸ order)

mutual

/-- A value is a spelling of itself. -/
theorem Respelled.refl : ∀ j : Json, j.Respelled j
  | .null => .null
  | .bool b => .bool b
  | .integer n => .integer n
  | .decimal digits => .decimal digits
  | .text s => .text s
  | .array items => .array (.refl items)
  | .object fields => .of_perm (.refl fields) (.refl fields)

theorem RespelledItems.refl : ∀ items : List Json, RespelledItems items items
  | [] => .nil
  | j :: items => .cons (.refl j) (.refl items)

theorem RespelledFields.refl : ∀ fields : List (String × Json), RespelledFields fields fields
  | [] => .nil
  | (_, j) :: fields => .cons (.refl j) (.refl fields)

end

/-! ## Fields -/

section Fields

variable {fields kept extra all l l' : List (String × Json)} {name : String} {j j' : Json}

/-- The order of fields does not matter to who looks for a name, unless it is there twice with
different values. -/
theorem lookup_eq_of_perm (h : l.Perm l')
    (hunique : ∀ j j', (name, j) ∈ l → (name, j') ∈ l → j = j') :
    l.lookup name = l'.lookup name := by
  induction h with
  | nil => rfl
  | cons field _ ih =>
    rw [List.lookup_cons, List.lookup_cons,
      ih fun j j' hj hj' => hunique j j' (List.mem_cons_of_mem _ hj) (List.mem_cons_of_mem _ hj')]
  | swap field field' l =>
    obtain ⟨first, j⟩ := field
    obtain ⟨second, j'⟩ := field'
    simp only [List.lookup_cons]
    by_cases hfirst : name = first
    · by_cases hsecond : name = second
      · subst hfirst hsecond
        simp [hunique j j' (by simp) (by simp)]
      · simp [hfirst, beq_false_of_ne (hfirst ▸ hsecond)]
    · simp [beq_false_of_ne hfirst]
  | trans h _ ih ih' =>
    rw [ih hunique, ih' fun j j' hj hj' => hunique j j' (h.mem_iff.mpr hj) (h.mem_iff.mpr hj')]

theorem lookup_eq_none_of_notMem (h : name ∉ l.map Prod.fst) : l.lookup name = none := by
  rw [List.lookup_eq_none_iff]
  intro field hfield
  rw [bne_iff_ne]
  rintro rfl
  exact h (List.mem_map_of_mem hfield)

theorem mem_names_of_lookup (h : l.lookup name = some j) : name ∈ l.map Prod.fst := by
  by_contra hname
  rw [lookup_eq_none_of_notMem hname] at h
  cases h

theorem RespelledFields.names_sublist (h : RespelledFields fields kept) :
    (kept.map Prod.fst).Sublist (fields.map Prod.fst) := by
  induction fields generalizing kept with
  | nil =>
    cases h
    exact List.Sublist.slnil
  | cons field fields ih =>
    cases h with
    | cons h hs => exact (ih hs).cons_cons _
    | omitted hs => exact (ih hs).cons _

/-- What a field holds is found in a spelling, except for a null condition that is left out. -/
theorem RespelledFields.lookup (h : RespelledFields fields kept)
    (hnames : (fields.map Prod.fst).Nodup) (hj : fields.lookup name = some j) :
    (∃ j', kept.lookup name = some j' ∧ j.Respelled j') ∨ j = .null ∧ kept.lookup name = none := by
  induction fields generalizing kept with
  | nil => cases hj
  | cons field fields ih =>
    rw [List.map_cons, List.nodup_cons] at hnames
    rw [List.lookup_cons] at hj
    cases h with
    | cons h hs =>
      rw [List.lookup_cons]
      split at hj
      · rename_i heq
        obtain rfl := Option.some.inj hj
        exact Or.inl ⟨_, by rw [heq], h⟩
      · rename_i hne
        rw [hne]
        exact ih hs hnames.2 hj
    | omitted hs =>
      split at hj
      · rename_i heq
        obtain rfl := Option.some.inj hj
        obtain rfl := eq_of_beq heq
        exact Or.inr ⟨rfl, lookup_eq_none_of_notMem fun hmem =>
          hnames.1 (hs.names_sublist.subset hmem)⟩
      · exact ih hs hnames.2 hj

/-- The fields that an object holds for who knows `fields`: they hold spellings of what these hold,
and only what is null may be missing. -/
def Finds (all fields : List (String × Json)) : Prop :=
  ∀ name j, fields.lookup name = some j →
    (∃ j', all.lookup name = some j' ∧ j.Respelled j') ∨ j = .null ∧ all.lookup name = none

/-- Fields of other names do not matter to who looks for one of several distinct names. -/
theorem lookup_of_perm_append (order : (kept ++ extra).Perm all)
    (hkept : (kept.map Prod.fst).Nodup) (hextra : name ∉ extra.map Prod.fst) :
    all.lookup name = kept.lookup name := by
  have hmem : ∀ j, (name, j) ∈ kept ++ extra → (name, j) ∈ kept := fun j hj =>
    (List.mem_append.mp hj).resolve_right fun hj => hextra (List.mem_map_of_mem hj)
  rw [← lookup_eq_of_perm order, List.lookup_append, lookup_eq_none_of_notMem hextra,
    Option.or_none]
  intro j j' hj hj'
  exact congrArg Prod.snd (List.inj_on_of_nodup_map hkept (hmem j hj) (hmem j' hj') rfl)

/-- A spelling of an object with distinct names is an object in which its fields are found. -/
theorem Respelled.exists_finds (h : (Json.object fields).Respelled j)
    (hnames : (fields.map Prod.fst).Nodup) : ∃ all, j = .object all ∧ Finds all fields := by
  cases h with
  | @object _ kept extra all h unknown order =>
    refine ⟨all, rfl, fun name j hj => ?_⟩
    have hextra : name ∉ extra.map Prod.fst := by
      intro hmem
      obtain ⟨field, hfield, rfl⟩ := List.mem_map.mp hmem
      exact unknown field hfield (mem_names_of_lookup hj)
    rw [lookup_of_perm_append order (hnames.sublist h.names_sublist) hextra]
    exact h.lookup hnames hj

/-- What is not null is found. -/
theorem Finds.exists_lookup (h : Finds all fields) (name : String)
    (hj : fields.lookup name = some j) (hnull : j ≠ .null) :
    ∃ j', all.lookup name = some j' ∧ j.Respelled j' :=
  (h name j hj).resolve_right fun hmissing => hnull hmissing.1

theorem Finds.lookup_text {s : String} (h : Finds all fields)
    (hj : fields.lookup name = some (.text s)) : all.lookup name = some (.text s) := by
  obtain ⟨j', hlookup, hrespelled⟩ := h.exists_lookup name hj nofun
  cases hrespelled
  exact hlookup

theorem Finds.lookup_integer {n : Int} (h : Finds all fields)
    (hj : fields.lookup name = some (.integer n)) : all.lookup name = some (.integer n) := by
  obtain ⟨j', hlookup, hrespelled⟩ := h.exists_lookup name hj nofun
  cases hrespelled
  exact hlookup

end Fields

/-! ## Reading -/

theorem int64?_toInt (w : Int64) : (integer w.toInt).int64? = some w :=
  word?_eq_some_iff.mpr rfl

theorem uint32?_toNat (w : UInt32) : (ofNat w.toNat).uint32? = some w := by
  change (if w.toNat < UInt32.size then some w.toNat else none).map UInt32.ofNat = some w
  rw [if_pos w.toNat_lt, Option.map_some, UInt32.ofNat_toNat]

@[simp] theorem record?_object (names : List String) (all : List (String × Json)) :
    (object all).record? names = some all := rfl

theorem kind?_object {kinds : List String} {inner : Bool} {all : List (String × Json)}
    {name : String} (h : all.lookup "kind" = some (.text name)) :
    (object all).kind? kinds inner = some (name, object all) := by
  simp [kind?, h, kindName?]

/-- If each item is read from all spellings, so is their list. -/
theorem Respelled.exists_mapM {α : Type} {encode : α → Json} {read? : Json → Option α}
    {items : List α} {j : Json} (h : (ofList encode items).Respelled j)
    (hread : ∀ a j, (encode a).Respelled j → read? j = some a) :
    ∃ js, j = .array js ∧ js.mapM read? = some items := by
  cases h with
  | @array _ js h =>
    refine ⟨js, rfl, ?_⟩
    induction items generalizing js with
    | nil =>
      cases h
      rfl
    | cons a items ih =>
      cases h with
      | cons h hs => simp [hread a _ h, ih hs]

end Json

/-! ## Expressions -/

namespace Expr

variable {inner : Bool} {j : Json}

/-- Reads the two operands of these names. -/
def readOperands? (first second : String) (body : Json) : Option (Expr × Expr) := do
  let fields ← body.record? [first, second]
  let lhs ← fields.lookup first
  let rhs ← fields.lookup second
  return (← read? true lhs, ← read? true rhs)

/-- Reads what a record of this kind holds. -/
def readBody? (kind : String) (body : Json) : Option Expr :=
  match kind with
  | "const" => do
    let fields ← body.record? ["value"]
    return .const (← (← fields.lookup "value").int64?)
  | "var" => do
    let fields ← body.record? ["name"]
    return .var (← (← fields.lookup "name").text?)
  | "add" => do
    let (lhs, rhs) ← readOperands? "lhs" "rhs" body
    return .add lhs rhs
  | "sub" => do
    let (lhs, rhs) ← readOperands? "lhs" "rhs" body
    return .sub lhs rhs
  | "select" => do
    let (thenArm, elseArm) ← readOperands? "then" "otherwise" body
    return .select thenArm elseArm
  | "call" => do
    let fields ← body.record? ["callee", "args"]
    match fields.lookup "callee", fields.lookup "args" with
    | some (.text callee), some (.array args) => return .call callee (← readList? args)
    | _, _ => none
  | "unmodeled" => do
    let fields ← body.record? ["text"]
    return .unmodeled (← (← fields.lookup "text").text?)
  | _ => none

section Operands

variable {first second : String} {body : Json} {fields : List (String × Json)}

theorem readOperands?_eq {lhs rhs : Json} (hr : body.record? [first, second] = some fields)
    (hfirst : fields.lookup first = some lhs) (hsecond : fields.lookup second = some rhs) :
    readOperands? first second body = do return (← read? true lhs, ← read? true rhs) := by
  rw [readOperands?, hr]
  simp [hfirst, hsecond]

theorem readOperands?_eq_none (hr : body.record? [first, second] = some fields)
    (h : ∀ lhs rhs, fields.lookup first = some lhs → fields.lookup second = some rhs → False) :
    readOperands? first second body = none := by
  rw [readOperands?, hr]
  cases hfirst : fields.lookup first with
  | none => simp [hfirst]
  | some lhs =>
    cases hsecond : fields.lookup second with
    | none => simp [hfirst, hsecond]
    | some rhs => exact (h lhs rhs hfirst hsecond).elim

end Operands

/-- Expressions are read by their kind. -/
theorem read?_eq_bind (inner : Bool) (j : Json) :
    read? inner j = (j.kind? kinds inner).bind fun (kind, body) => readBody? kind body := by
  rw [read?.eq_def]
  split
  case h_8 hother =>
    -- the kind is none of those above, or there is none
    cases hkind : j.kind? kinds inner with
    | none => rfl
    | some kb =>
      obtain ⟨kind, body⟩ := kb
      rw [Option.bind_some]
      simp only [readBody?]
      split <;> simp_all
  all_goals
    rename_i body hkind
    rw [hkind, Option.bind_some]
    simp only [readBody?]
  case h_6 =>
    -- a call; what is left then has two operands
    split
    · rename_i fields hr
      rw [hr]
      split
      · rename_i hcallee hargs
        simp [hcallee, hargs]
      · simp only [Option.bind_eq_bind, Option.bind_some]
    · rename_i hr
      rw [hr]
      rfl
  all_goals
    split
    · rename_i fields hr
      split
      · rename_i lhs rhs hfirst hsecond
        rw [readOperands?_eq hr hfirst hsecond]
        cases read? true lhs <;> cases read? true rhs <;> rfl
      · rename_i hnone
        rw [readOperands?_eq_none hr hnone]
        rfl
    · rename_i hr
      simp [readOperands?, hr]

theorem read?_object {all : List (String × Json)} {kind : String}
    (h : all.lookup "kind" = some (.text kind)) :
    read? inner (.object all) = readBody? kind (.object all) := by
  rw [read?_eq_bind, Json.kind?_object h, Option.bind_some]

theorem toJson_ne_null (e : Expr) : e.toJson ≠ .null := by
  cases e <;> exact nofun

/-- Operands that are read from all spellings are found. -/
theorem readOperands?_object {fields all : List (String × Json)} {first second : String}
    {lhs rhs : Expr} (h : Json.Finds all fields)
    (hfirst : fields.lookup first = some lhs.toJson)
    (hsecond : fields.lookup second = some rhs.toJson)
    (hlhs : ∀ j, lhs.toJson.Respelled j → read? true j = some lhs)
    (hrhs : ∀ j, rhs.toJson.Respelled j → read? true j = some rhs) :
    readOperands? first second (.object all) = some (lhs, rhs) := by
  obtain ⟨j, hj, hlj⟩ := h.exists_lookup first hfirst lhs.toJson_ne_null
  obtain ⟨j', hj', hrj⟩ := h.exists_lookup second hsecond rhs.toJson_ne_null
  rw [readOperands?_eq rfl hj hj', hlhs j hlj, hrhs j' hrj]
  rfl

mutual

/-- An expression is read from every spelling of its JSON form. -/
theorem read?_of_respelled : ∀ (e : Expr) (inner : Bool) (j : Json), e.toJson.Respelled j →
    read? inner j = some e
  | .const value, inner, j, h => by
    rw [toJson] at h
    obtain ⟨all, rfl, hall⟩ := h.exists_finds (by simp)
    have hvalue : all.lookup "value" = some (.integer value.toInt) := hall.lookup_integer rfl
    rw [read?_object (hall.lookup_text rfl)]
    simp [readBody?, hvalue, Json.int64?_toInt]
  | .var name, inner, j, h => by
    rw [toJson] at h
    obtain ⟨all, rfl, hall⟩ := h.exists_finds (by simp)
    have hname : all.lookup "name" = some (.text name) := hall.lookup_text rfl
    rw [read?_object (hall.lookup_text rfl)]
    simp [readBody?, hname, Json.text?]
  | .add lhs rhs, inner, j, h => by
    rw [toJson] at h
    obtain ⟨all, rfl, hall⟩ := h.exists_finds (by simp)
    rw [read?_object (hall.lookup_text rfl), readBody?,
      readOperands?_object hall rfl rfl (read?_of_respelled lhs true) (read?_of_respelled rhs true)]
    rfl
  | .sub lhs rhs, inner, j, h => by
    rw [toJson] at h
    obtain ⟨all, rfl, hall⟩ := h.exists_finds (by simp)
    rw [read?_object (hall.lookup_text rfl), readBody?,
      readOperands?_object hall rfl rfl (read?_of_respelled lhs true) (read?_of_respelled rhs true)]
    rfl
  | .select thenArm elseArm, inner, j, h => by
    rw [toJson] at h
    obtain ⟨all, rfl, hall⟩ := h.exists_finds (by simp)
    rw [read?_object (hall.lookup_text rfl), readBody?,
      readOperands?_object hall rfl rfl (read?_of_respelled thenArm true)
        (read?_of_respelled elseArm true)]
    rfl
  | .call callee args, inner, j, h => by
    rw [toJson] at h
    obtain ⟨all, rfl, hall⟩ := h.exists_finds (by simp)
    have hcallee : all.lookup "callee" = some (.text callee) := hall.lookup_text rfl
    obtain ⟨j, hargs, h⟩ := hall.exists_lookup "args" rfl nofun
    cases h with
    | array h =>
      rw [read?_object (hall.lookup_text rfl)]
      simp [readBody?, hcallee, hargs, readList?_of_respelled args _ h]
  | .unmodeled text, inner, j, h => by
    rw [toJson] at h
    obtain ⟨all, rfl, hall⟩ := h.exists_finds (by simp)
    have htext : all.lookup "text" = some (.text text) := hall.lookup_text rfl
    rw [read?_object (hall.lookup_text rfl)]
    simp [readBody?, htext, Json.text?]

theorem readList?_of_respelled : ∀ (es : List Expr) (js : List Json),
    Json.RespelledItems (toJsonList es) js → readList? js = some es
  | [], _, .nil => by rw [readList?]
  | e :: es, _, .cons h hs => by
    rw [readList?, read?_of_respelled e true _ h, readList?_of_respelled es _ hs]
    rfl

end

end Expr

/-! ## Statements -/

theorem Span.ofJson?_of_respelled {s : Span} {j : Json} (h : s.toJson.Respelled j) :
    ofJson? j = some s := by
  obtain ⟨all, rfl, hall⟩ := h.exists_finds (by simp)
  have hstartLine : all.lookup "start_line" = some (.ofNat s.startLine.toNat) :=
    hall.lookup_integer rfl
  have hstartCol : all.lookup "start_col" = some (.ofNat s.startCol.toNat) :=
    hall.lookup_integer rfl
  have hendLine : all.lookup "end_line" = some (.ofNat s.endLine.toNat) :=
    hall.lookup_integer rfl
  have hendCol : all.lookup "end_col" = some (.ofNat s.endCol.toNat) :=
    hall.lookup_integer rfl
  simp [ofJson?, hstartLine, hstartCol, hendLine, hendCol, Json.uint32?_toNat]

/-- Part of a record with a kind, a comparison is read from every spelling too. -/
theorem Comparison.ofName?_of_respelled {op : Comparison} {j : Json}
    (h : op.toJson.Respelled j) : j.innerPlain?.bind ofName? = some op := by
  cases op <;> cases h <;> rfl

theorem Comparison.toJson_ne_null (op : Comparison) : op.toJson ≠ .null := by
  cases op <;> exact nofun

theorem Condition.ofJson?_of_respelled {c : Condition} {j : Json} (h : c.toJson.Respelled j) :
    ofJson? j = some c := by
  obtain ⟨all, rfl, hall⟩ := h.exists_finds (by simp)
  have hvar : all.lookup "var" = some (.text c.var) := hall.lookup_text rfl
  obtain ⟨op, hop, hopj⟩ := hall.exists_lookup "op" rfl c.op.toJson_ne_null
  obtain ⟨value, hvalue, hvaluej⟩ := hall.exists_lookup "value" rfl c.value.toJson_ne_null
  simp [ofJson?, hvar, Json.text?, hop, Comparison.ofName?_of_respelled hopj, hvalue,
    Expr.read?_of_respelled _ _ _ hvaluej]

theorem Statement.ofJson?_of_respelled {statement : Statement} {j : Json}
    (h : statement.toJson.Respelled j) : ofJson? j = some statement := by
  cases statement with
  | assign target value span =>
    obtain ⟨all, rfl, hall⟩ := h.exists_finds (by simp)
    have htarget : all.lookup "target" = some (.text target) := hall.lookup_text rfl
    obtain ⟨v, hv, hvj⟩ := hall.exists_lookup "value" rfl value.toJson_ne_null
    obtain ⟨s, hs, hsj⟩ := hall.exists_lookup "span" rfl nofun
    rw [ofJson?, Json.kind?_object (hall.lookup_text rfl)]
    simp [htarget, Json.text?, hv, Expr.read?_of_respelled _ _ _ hvj, hs,
      Span.ofJson?_of_respelled hsj]
  | access base index span =>
    obtain ⟨all, rfl, hall⟩ := h.exists_finds (by simp)
    have hbase : all.lookup "base" = some (.text base) := hall.lookup_text rfl
    obtain ⟨i, hi, hij⟩ := hall.exists_lookup "index" rfl index.toJson_ne_null
    obtain ⟨s, hs, hsj⟩ := hall.exists_lookup "span" rfl nofun
    rw [ofJson?, Json.kind?_object (hall.lookup_text rfl)]
    simp [hbase, Json.text?, hi, Expr.read?_of_respelled _ _ _ hij, hs,
      Span.ofJson?_of_respelled hsj]
  | eval expr span =>
    obtain ⟨all, rfl, hall⟩ := h.exists_finds (by simp)
    obtain ⟨e, he, hej⟩ := hall.exists_lookup "expr" rfl expr.toJson_ne_null
    obtain ⟨s, hs, hsj⟩ := hall.exists_lookup "span" rfl nofun
    rw [ofJson?, Json.kind?_object (hall.lookup_text rfl)]
    simp [he, Expr.read?_of_respelled _ _ _ hej, hs, Span.ofJson?_of_respelled hsj]

/-! ## Blocks -/

/-- A condition is read from every spelling, and where there is none nothing is, whether null is
written or left out. -/
theorem Condition.rel_optional? {fields all : List (String × Json)}
    {condition : Option Condition} (h : Json.Finds all fields)
    (hcondition : fields.lookup "condition" = some (.ofOption toJson condition)) :
    Option.Rel (fun j c => ofJson? j = some c) (Json.optional? all "condition") condition := by
  cases condition with
  | none =>
    have hnone : Json.optional? all "condition" = none := by
      rw [Json.optional?]
      rcases h _ _ hcondition with ⟨j, hj, hnull⟩ | ⟨-, hmissing⟩
      · cases hnull
        rw [hj]
      · rw [hmissing]
    rw [hnone]
    exact .none
  | some c =>
    obtain ⟨j, hj, hcj⟩ := h.exists_lookup "condition" hcondition nofun
    have hsome : Json.optional? all "condition" = some j := by
      obtain ⟨all', rfl, -⟩ := hcj.exists_finds (by simp)
      rw [Json.optional?, hj]
    rw [hsome]
    exact .some (ofJson?_of_respelled hcj)

theorem Terminator.ofJson?_of_respelled {t : Terminator} {j : Json}
    (h : t.toJson.Respelled j) : ofJson? j = some t := by
  cases t with
  | goto target =>
    obtain ⟨all, rfl, hall⟩ := h.exists_finds (by simp)
    have htarget : all.lookup "target" = some (.text target) := hall.lookup_text rfl
    rw [ofJson?, Json.kind?_object (hall.lookup_text rfl)]
    simp [htarget, Json.text?]
  | branch condition thenBlock elseBlock =>
    obtain ⟨all, rfl, hall⟩ := h.exists_finds (by simp)
    have hthen : all.lookup "then_block" = some (.text thenBlock) := hall.lookup_text rfl
    have helse : all.lookup "else_block" = some (.text elseBlock) := hall.lookup_text rfl
    have hcondition : Option.Rel _ (Json.optional? all "condition") condition :=
      Condition.rel_optional? hall rfl
    rw [ofJson?, Json.kind?_object (hall.lookup_text rfl)]
    simp only [Option.bind_eq_bind, Option.bind_some, Json.record?_object]
    generalize Json.optional? all "condition" = found at hcondition
    cases hcondition with
    | some hc => simp [hc, hthen, helse, Json.text?]
    | none => simp [hthen, helse, Json.text?]
  | exit =>
    obtain ⟨all, rfl, hall⟩ := h.exists_finds (by simp)
    rw [ofJson?, Json.kind?_object (hall.lookup_text rfl)]
    simp

theorem Terminator.toJson_ne_null (t : Terminator) : t.toJson ≠ .null := by
  cases t <;> exact nofun

theorem Block.ofJson?_of_respelled {b : Block} {j : Json} (h : b.toJson.Respelled j) :
    ofJson? j = some b := by
  obtain ⟨all, rfl, hall⟩ := h.exists_finds (by simp)
  have hid : all.lookup "id" = some (.text b.id) := hall.lookup_text rfl
  obtain ⟨_, hstatements, hj⟩ := hall.exists_lookup "statements" rfl nofun
  obtain ⟨js, rfl, hjs⟩ := hj.exists_mapM fun _ _ => Statement.ofJson?_of_respelled
  obtain ⟨t, ht, htj⟩ := hall.exists_lookup "terminator" rfl b.terminator.toJson_ne_null
  simp [ofJson?, hid, Json.text?, hstatements, Json.items?, hjs, ht,
    Terminator.ofJson?_of_respelled htj]

/-! ## Functions -/

namespace Function

theorem ofJson?_of_respelled {f : Function} {j : Json} (h : f.toJson.Respelled j) :
    ofJson? j = some f := by
  obtain ⟨all, rfl, hall⟩ := h.exists_finds (by simp)
  have hname : all.lookup "name" = some (.text f.name) := hall.lookup_text rfl
  have hentry : all.lookup "entry" = some (.text f.entry) := hall.lookup_text rfl
  obtain ⟨_, hblocks, hj⟩ := hall.exists_lookup "blocks" rfl nofun
  obtain ⟨js, rfl, hjs⟩ := hj.exists_mapM fun _ _ => Block.ofJson?_of_respelled
  simp [ofJson?, hname, hentry, Json.text?, hblocks, Json.items?, hjs]

/-- **The JSON form loses nothing.** Every function is read from its JSON form, and from every
spelling of that form: with the fields of any of its objects in another order, with fields of other
names in any of them, and without branch conditions that are null. -/
theorem ofJson?_toJson (f : Function) :
    ofJson? f.toJson = some f ∧ ∀ j, f.toJson.Respelled j → ofJson? j = some f :=
  ⟨ofJson?_of_respelled (.refl _), fun _ => ofJson?_of_respelled⟩

/-- Every object of a function whose one block branches to itself is written from the end, with a
remark that no reader knows and without the condition, which is null. -/
theorem ofJson?_toJson_backwards :
    let f : Function := ⟨"f", "a", [⟨"a", [], .branch none "a" "a"⟩]⟩
    let terminator := Json.object
      [("else_block", .text "a"), ("then_block", .text "a"), ("kind", .text "branch")]
    let block := Json.object
      [("terminator", terminator), ("statements", .array []), ("id", .text "a")]
    let j := Json.object
      [("remark", .text "loops"), ("blocks", .array [block]), ("entry", .text "a"),
        ("name", .text "f")]
    f.toJson.Respelled j ∧ ofJson? j = some f := by
  intro f terminator block j
  have hterminator : (Terminator.branch none "a" "a").toJson.Respelled terminator :=
    .of_perm (.cons (.refl _) (.omitted (.cons (.refl _) (.cons (.refl _) .nil))))
      (List.reverse_perm _).symm
  have hblock : (Block.toJson ⟨"a", [], .branch none "a" "a"⟩).Respelled block :=
    .of_perm (.cons (.refl _) (.cons (.refl _) (.cons hterminator .nil))) (List.reverse_perm _).symm
  have horder := (List.reverse_perm
    [("name", Json.text "f"), ("entry", .text "a"), ("blocks", .array [block]),
      ("remark", .text "loops")]).symm
  have hj : f.toJson.Respelled j :=
    .object (.cons (.refl _) (.cons (.refl _) (.cons (.array (.cons hblock .nil)) .nil)))
      (List.forall_mem_singleton.mpr (by decide)) horder
  exact ⟨hj, (ofJson?_toJson f).2 j hj⟩

end Function

end BufferBounds
