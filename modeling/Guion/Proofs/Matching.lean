import Mathlib.Data.List.Forall2
import Guion.Proofs.Invariant.Trees

/-!
# Stores that match

Two stores match if addresses of the one correspond to addresses of the other, frames to frames, and
what stands at corresponding places corresponds.  Scripts cannot see addresses: whatever a run reads
from two stores that match, a type, a text, a binding or the reason why there is none, is the same
on both sides up to the correspondence.  Only names that a run uses have to match.

    v.Matches objects v' → s'.display v' = s.display v                        (display_eq)
    Agrees (Value.Matches objects) (s.lookup scope name) (s'.lookup scope' name)  (agrees_lookup)
-/

namespace Guion

/-! ## Names in trees -/

namespace Node

mutual

/-- The names of variables that a tree looks up, assigns or declares.  Keys of properties are none,
except where the key alone stands for a variable. -/
def names : Node → List String
  | .program body | .otherwise body => namesInList body
  | .declare _ name value => name :: names value
  | .function name params body =>
    (if name.isEmpty then [] else [name]) ++ (params ++ namesInList body)
  | .giveBack value => names value
  | .when condition body alternative =>
    names condition ++ (namesInList body ++ namesInOption alternative)
  | .assign target value => names target ++ names value
  | .binary left right _ => names left ++ names right
  | .call callee args => names callee ++ namesInList args
  | .member owner key _ => names owner ++ names key
  | .ident symbol => [symbol]
  | .property key none => [key]
  | .property _ (some value) => names value
  | .object entries => namesInList entries
  | .list elements => namesInList elements
  | .propertyName _ | .number _ | .string _ | .foreign _ => []

def namesInList : List Node → List String
  | [] => []
  | node :: rest => names node ++ namesInList rest

def namesInOption : Option Node → List String
  | none => []
  | some node => names node

end

end Node

/-- The names that a call of the function uses. -/
def Closure.names (c : Closure) : List String := c.params ++ Node.namesInList c.body

/-! ## Values that match -/

/-- The same value, or references to addresses that correspond. -/
inductive Value.Matches (objects : Address → Address → Prop) : Value → Value → Prop
  | null : Matches objects .null .null
  | bool (b : Bool) : Matches objects (.bool b) (.bool b)
  | num (n : Num) : Matches objects (.num n) (.num n)
  | str (t : String) : Matches objects (.str t) (.str t)
  | ref {a a' : Address} : objects a a' → Matches objects (.ref a) (.ref a')

structure Binding.Matches (objects : Address → Address → Prop) (b b' : Binding) : Prop where
  value : b.value.Matches objects b'.value
  constant : b'.constant = b.constant

/-- The same function, made in scopes that correspond. -/
structure Closure.Matches (frames : FrameId → FrameId → Prop) (c c' : Closure) : Prop where
  params : c'.params = c.params
  body : c'.body = c.body
  native : c'.native = c.native
  chain : List.Forall₂ frames c.chain c'.chain

inductive Shape.Matches (frames : FrameId → FrameId → Prop) : Shape → Shape → Prop
  | object : Matches frames .object .object
  | list : Matches frames .list .list
  | tagged (type : String) (extendsObject : Bool) :
      Matches frames (.tagged type extendsObject) (.tagged type extendsObject)
  | function {c c' : Closure} : c.Matches frames c' → Matches frames (.function c) (.function c')

/-- The same names in the same order, and values that are related. -/
def Table.Matches {α : Type} (R : α → α → Prop) (t t' : Table α) : Prop :=
  List.Forall₂ (fun e e' => e'.1 = e.1 ∧ R e.2 e'.2) t.entries t'.entries

structure Object.Matches (objects : Address → Address → Prop) (frames : FrameId → FrameId → Prop)
    (o o' : Object) : Prop where
  shape : o.shape.Matches frames o'.shape
  properties : o.properties.Matches (Value.Matches objects) o'.properties

section

variable {objects objects' : Address → Address → Prop} {frames frames' : FrameId → FrameId → Prop}

theorem Value.Matches.mono (h : ∀ a a', objects a a' → objects' a a') {v v' : Value}
    (hv : v.Matches objects v') : v.Matches objects' v' := by
  cases hv with
  | ref ha => exact .ref (h _ _ ha)
  | _ => constructor

/-- A value that matches another refers to an address with a corresponding one, if to any. -/
theorem Value.Matches.known {v v' : Value} (h : v.Matches objects v') :
    v.Known fun a => ∃ a', objects a a' := by
  cases h with
  | ref ha => exact ⟨_, ha⟩
  | _ => trivial

theorem Shape.Matches.mono (h : ∀ f f', frames f f' → frames' f f') {shape shape' : Shape}
    (hs : shape.Matches frames shape') : shape.Matches frames' shape' := by
  cases hs with
  | function hc =>
    exact .function ⟨hc.params, hc.body, hc.native, hc.chain.imp fun _ _ hf => h _ _ hf⟩
  | _ => constructor

theorem Shape.Matches.typeName_eq {shape shape' : Shape} (h : shape.Matches frames shape') :
    shape'.typeName = shape.typeName := by
  cases h <;> rfl

end

/-! ## Tables that match -/

namespace Table

variable {α : Type} {R R' : α → α → Prop} {t t' : Table α}

theorem matches_empty : (Table.empty : Table α).Matches R .empty := .nil

theorem Matches.mono (h : ∀ a a', R a a' → R' a a') (ht : t.Matches R t') : t.Matches R' t' :=
  List.Forall₂.imp (fun _ _ he => ⟨he.1, h _ _ he.2⟩) ht

section

variable {β : Type} {S : α → β → Prop} {es : List (String × α)} {es' : List (String × β)}
  (h : List.Forall₂ (fun e e' => e'.1 = e.1 ∧ S e.2 e'.2) es es')
include h

theorem map_fst_eq : es'.map Prod.fst = es.map Prod.fst := by
  induction h with
  | nil => rfl
  | cons he _ ih => rw [List.map_cons, List.map_cons, he.1, ih]

theorem rel_findIn (key : String) : Option.Rel S (findIn key es) (findIn key es') := by
  induction h with
  | nil => exact .none
  | @cons e e' es es' he _ ih =>
    obtain ⟨k, v⟩ := e
    obtain ⟨k', v'⟩ := e'
    obtain ⟨rfl, hv⟩ := he
    by_cases hk : k' = key
    · rw [findIn, findIn, if_pos hk, if_pos hk]
      exact .some hv
    · rw [findIn, findIn, if_neg hk, if_neg hk]
      exact ih

theorem forall₂_insertIn (key : String) {v : α} {v' : β} (hv : S v v') :
    List.Forall₂ (fun e e' => e'.1 = e.1 ∧ S e.2 e'.2) (insertIn key v es)
      (insertIn key v' es') := by
  induction h with
  | nil => exact .cons ⟨rfl, hv⟩ .nil
  | @cons e e' es es' he hes ih =>
    obtain ⟨k, u⟩ := e
    obtain ⟨k', u'⟩ := e'
    obtain ⟨rfl, hu⟩ := he
    by_cases hk : k' = key
    · rw [insertIn, insertIn, if_pos hk, if_pos hk]
      exact .cons ⟨rfl, hv⟩ hes
    · rw [insertIn, insertIn, if_neg hk, if_neg hk]
      exact .cons ⟨rfl, hu⟩ ih

end

theorem Matches.rel_find? (h : t.Matches R t') (key : String) :
    Option.Rel R (t.find? key) (t'.find? key) :=
  rel_findIn h key

theorem Matches.insert (h : t.Matches R t') (key : String) {v v' : α} (hv : R v v') :
    (t.insert key v).Matches R (t'.insert key v') :=
  forall₂_insertIn h key hv

theorem Matches.insertAll {es es' : List (String × α)}
    (hes : List.Forall₂ (fun e e' => e'.1 = e.1 ∧ R e.2 e'.2) es es') :
    ∀ {t t' : Table α}, t.Matches R t' → (t.insertAll es).Matches R (t'.insertAll es') := by
  induction hes with
  | nil => exact fun h => h
  | @cons e e' es es' he _ ih =>
    intro t t' h
    obtain ⟨k, v⟩ := e
    obtain ⟨k', v'⟩ := e'
    obtain ⟨rfl, hv⟩ := he
    exact ih (h.insert k' hv)

end Table

/-! ## Looks at one value -/

namespace Object.Matches

variable {objects : Address → Address → Prop} {frames : FrameId → FrameId → Prop} {o o' : Object}
  (h : o.Matches objects frames o')
include h

theorem get (key : String) : (o.get key).Matches objects (o'.get key) := by
  have hfound := h.properties.rel_find? key
  unfold Object.get
  generalize o.properties.find? key = x, o'.properties.find? key = x' at hfound
  cases hfound with
  | none => exact .null
  | some hv => exact hv

theorem functionName_eq : o'.functionName = o.functionName := by
  have hfound := h.properties.rel_find? "name"
  unfold Object.functionName
  generalize o.properties.find? "name" = x, o'.properties.find? "name" = x' at hfound
  cases hfound with
  | none => rfl
  | some hv => cases hv <;> rfl

theorem shown :
    List.Forall₂ (fun e e' => e'.1 = e.1 ∧ e.2.Matches objects e'.2) o.shown o'.shown := by
  refine List.rel_filter (fun e e' he => ?_) h.properties
  show (!isHidden e.1) = true ↔ (!isHidden e'.1) = true
  rw [he.1]

theorem shown_keys_eq : o'.shown.map Prod.fst = o.shown.map Prod.fst := Table.map_fst_eq h.shown

end Object.Matches

/-! ## Looks that agree -/

/-- Both looks find things that are related, or both fail for one cause. -/
inductive Agrees {α : Type} (Q : α → α → Prop) : Except Failure α → Except Failure α → Prop
  | ok {a a' : α} : Q a a' → Agrees Q (.ok a) (.ok a')
  | error (cause : Failure) : Agrees Q (.error cause) (.error cause)

section

variable {α β : Type} {P : α → α → Prop} {Q : β → β → Prop}

theorem agrees_of_eq {x x' : Except Failure α} (h : x' = x) (hP : ∀ a, P a a) : Agrees P x x' := by
  subst h
  cases x' with
  | ok a => exact .ok (hP a)
  | error cause => exact .error cause

theorem agrees_bind {x x' : Except Failure α} {f f' : α → Except Failure β} (hx : Agrees P x x')
    (hf : ∀ a a', P a a' → Agrees Q (f a) (f' a')) : Agrees Q (x >>= f) (x' >>= f') := by
  cases hx with
  | ok h => exact hf _ _ h
  | error cause => exact .error cause

theorem agrees_map {x x' : Except Failure α} {f : α → β} (hx : Agrees P x x')
    (hf : ∀ a a', P a a' → Q (f a) (f a')) : Agrees Q (x.map f) (x'.map f) := by
  cases hx with
  | ok h => exact .ok (hf _ _ h)
  | error cause => exact .error cause

theorem exists_of_mem_forall₂ {R : α → β → Prop} {xs : List α} {ys : List β}
    (h : List.Forall₂ R xs ys) {x : α} (hx : x ∈ xs) : ∃ y ∈ ys, R x y := by
  induction h with
  | nil => cases hx
  | @cons x₀ y₀ xs ys hxy _ ih =>
    rcases List.mem_cons.1 hx with rfl | hx
    · exact ⟨y₀, List.mem_cons_self, hxy⟩
    · obtain ⟨y, hy, hxy⟩ := ih hx
      exact ⟨y, List.mem_cons_of_mem _ hy, hxy⟩

/-- One look at related things, one after the other. -/
theorem mapM_eq_of_forall₂ {m : Type → Type} [Monad m] [LawfulMonad m] {R : α → α → Prop}
    {f f' : α → m β} (hf : ∀ a a', R a a' → f' a' = f a) {xs xs' : List α}
    (h : List.Forall₂ R xs xs') : xs'.mapM f' = xs.mapM f := by
  induction h with
  | nil => rfl
  | cons ha _ ih => rw [List.mapM_cons, List.mapM_cons, hf _ _ ha, ih]

end

/-! ## Data with values that match themselves -/

/-- Data whose runtime values match themselves, in keys too, and whose functions are admitted. -/
inductive Datum.Fixed (fixes : Address → Prop) (admits : Native → Prop) : Datum → Prop
  | null : Fixed fixes admits .null
  | bool (b : Bool) : Fixed fixes admits (.bool b)
  | num (n : Num) : Fixed fixes admits (.num n)
  | text (t : String) : Fixed fixes admits (.text t)
  | list {items : List Datum} : (∀ d ∈ items, Fixed fixes admits d) →
      Fixed fixes admits (.list items)
  | sequence {items : List Datum} : (∀ d ∈ items, Fixed fixes admits d) →
      Fixed fixes admits (.sequence items)
  | record {entries : List (Datum × Datum)} : (∀ e ∈ entries, Fixed fixes admits e.1) →
      (∀ e ∈ entries, Fixed fixes admits e.2) → Fixed fixes admits (.record entries)
  | function {id name : String} : admits (.dataFunction id) →
      Fixed fixes admits (.function id name)
  | unsupported (thing : Unsupported) : Fixed fixes admits (.unsupported thing)
  | value {v : Value} (held : Option Nat) : v.Known fixes → Fixed fixes admits (.value v held)

theorem Value.Known.matches {objects : Address → Address → Prop} {v : Value}
    (h : v.Known fun a => objects a a) : v.Matches objects v := by
  cases v with
  | ref a => exact .ref h
  | null => exact .null
  | bool b => exact .bool b
  | num n => exact .num n
  | str t => exact .str t

namespace Datum

theorem Fixed.mono {fixes fixes' : Address → Prop} {admits : Native → Prop}
    (h : ∀ a, fixes a → fixes' a) {d : Datum} (hd : d.Fixed fixes admits) :
    d.Fixed fixes' admits := by
  induction hd with
  | null => exact .null
  | bool b => exact .bool b
  | num n => exact .num n
  | text t => exact .text t
  | list _ ih => exact .list ih
  | sequence _ ih => exact .sequence ih
  | record _ _ ihk ih => exact .record ihk ih
  | function ha => exact .function ha
  | unsupported thing => exact .unsupported thing
  | value held hv => exact .value held (hv.mono h)

section

variable {fixes : Address → Prop} {admits : Native → Prop} (hfixes : ∀ a, fixes a)
  (hadmits : ∀ id, admits (.dataFunction id))
include hfixes hadmits

-- the theorems below use the hypotheses through each other, which the linter does not see
set_option linter.unusedSectionVars false

mutual

theorem fixed_any : ∀ d : Datum, d.Fixed fixes admits
  | .null => .null
  | .bool b => .bool b
  | .num n => .num n
  | .text t => .text t
  | .list items => .list (fixed_any_items items)
  | .sequence items => .sequence (fixed_any_items items)
  | .record entries => .record (fixed_any_keys entries) (fixed_any_entries entries)
  | .function id _ => .function (hadmits id)
  | .unsupported thing => .unsupported thing
  | .value v held => .value held (v.known_any.mono fun a _ => hfixes a)

theorem fixed_any_items : ∀ items : List Datum, ∀ d ∈ items, d.Fixed fixes admits
  | [] => nofun
  | d :: ds => List.forall_mem_cons.2 ⟨fixed_any d, fixed_any_items ds⟩

theorem fixed_any_keys : ∀ entries : List (Datum × Datum), ∀ e ∈ entries, e.1.Fixed fixes admits
  | [] => nofun
  | (key, _) :: rest => List.forall_mem_cons.2 ⟨fixed_any key, fixed_any_keys rest⟩

theorem fixed_any_entries : ∀ entries : List (Datum × Datum), ∀ e ∈ entries, e.2.Fixed fixes admits
  | [] => nofun
  | (_, d) :: rest => List.forall_mem_cons.2 ⟨fixed_any d, fixed_any_entries rest⟩

end

end

end Datum

/-! ## Texts of data with values that match themselves -/

namespace Datum

variable {s s' : Store}

theorem debugList_eq {items : List Datum} (h : ∀ d ∈ items, d.debug s' = d.debug s) :
    debugList s' items = debugList s items := by
  induction items with
  | nil => rfl
  | cons d ds ih =>
    obtain ⟨hd, hds⟩ := List.forall_mem_cons.1 h
    rw [debugList, debugList, hd, ih hds]

theorem debugEntries_eq {entries : List (Datum × Datum)}
    (hkeys : ∀ e ∈ entries, e.1.debug s' = e.1.debug s)
    (h : ∀ e ∈ entries, e.2.debug s' = e.2.debug s) :
    debugEntries s' entries = debugEntries s entries := by
  induction entries with
  | nil => rfl
  | cons e rest ih =>
    obtain ⟨key, d⟩ := e
    obtain ⟨hkey, hkeys⟩ := List.forall_mem_cons.1 hkeys
    obtain ⟨hd, h⟩ := List.forall_mem_cons.1 h
    rw [debugEntries, debugEntries, hkey, hd, ih hkeys h]

theorem listTexts_eq {items : List Datum} (h : ∀ d ∈ items, d.nestedText s' = d.nestedText s) :
    listTexts s' items = listTexts s items := by
  induction items with
  | nil => rfl
  | cons d ds ih =>
    obtain ⟨hd, hds⟩ := List.forall_mem_cons.1 h
    rw [listTexts, listTexts, hd, ih hds]

theorem entryTexts_eq {entries : List (Datum × Datum)}
    (hkeys : ∀ e ∈ entries, e.1.keyText s' = e.1.keyText s)
    (h : ∀ e ∈ entries, e.2.nestedText s' = e.2.nestedText s) :
    entryTexts s' entries = entryTexts s entries := by
  induction entries with
  | nil => rfl
  | cons e rest ih =>
    obtain ⟨key, d⟩ := e
    obtain ⟨hkey, hkeys⟩ := List.forall_mem_cons.1 hkeys
    obtain ⟨hd, h⟩ := List.forall_mem_cons.1 h
    rw [entryTexts, entryTexts, hkey, hd, ih hkeys h]

namespace Fixed

variable {fixes : Address → Prop} {admits : Native → Prop} {d : Datum} (hd : d.Fixed fixes admits)
  (hdebug : ∀ v : Value, v.Known fixes → v.debug s' = v.debug s)
include hd hdebug

theorem debug_eq : d.debug s' = d.debug s := by
  induction hd with
  | list _ ih => rw [Datum.debug, Datum.debug, debugList_eq ih]
  | sequence _ ih => rw [Datum.debug, Datum.debug, debugList_eq ih]
  | record _ _ ihkeys ih => rw [Datum.debug, Datum.debug, debugEntries_eq ihkeys ih]
  | @value v held hv => exact hdebug v hv
  | _ => rfl

theorem keyText_eq : d.keyText s' = d.keyText s := by
  have hd' := hd.debug_eq hdebug
  cases d with
  | text t => rfl
  | _ => exact hd'

theorem nestedText_eq : d.nestedText s' = d.nestedText s := by
  induction hd with
  | list _ ih => rw [nestedText, nestedText, listTexts_eq ih]
  | record hkeys _ _ ih =>
    rw [nestedText, nestedText, entryTexts_eq (fun e he => (hkeys e he).keyText_eq hdebug) ih]
  | sequence hitems _ => exact (Fixed.sequence hitems).debug_eq hdebug
  | @value v held hv => exact hdebug v hv
  | _ => rfl

theorem topText_eq : d.topText s' = d.topText s := by
  have hd' := hd.nestedText_eq hdebug
  cases d with
  | text t => rfl
  | _ => exact hd'

end Fixed

end Datum

/-- What is shown of a value holds no runtime values. -/
theorem Store.fixed_showWithin (s : Store) {fixes : Address → Prop} {admits : Native → Prop} :
    ∀ (depth : Nat) (v : Value) (d : Datum), s.showWithin depth v = some d →
      d.Fixed fixes admits := by
  intro depth
  induction depth with
  | zero =>
    intro v d h
    cases v with
    | ref a =>
      simp only [showWithin] at h
      split at h <;> cases h
      exact .text _
    | _ => cases h; constructor
  | succ depth ih =>
    intro v d h
    cases v with
    | ref a =>
      simp only [showWithin] at h
      split at h
      · cases h
        exact .text _
      · obtain ⟨items, hi, rfl⟩ := Option.map_eq_some_iff.1 h
        exact .list (forall_mem_of_mapM (fun e d hd => ih e.2 d hd) hi)
      all_goals
        obtain ⟨entries, he, rfl⟩ := Option.map_eq_some_iff.1 h
        have both : ∀ p ∈ entries, p.1.Fixed fixes admits ∧ p.2.Fixed fixes admits := by
          refine forall_mem_of_mapM (fun e p hp => ?_) he
          obtain ⟨d, hd, rfl⟩ := Option.map_eq_some_iff.1 hp
          exact ⟨.text e.1, ih e.2 d hd⟩
        exact .record (fun p hp => (both p hp).1) fun p hp => (both p hp).2
    | _ => cases h; constructor

/-! ## Matching by equality -/

section

variable {objects : Address → Address → Prop} {frames : FrameId → FrameId → Prop}

theorem Value.matches_self (h : ∀ a, objects a a) (v : Value) : v.Matches objects v := by
  refine Value.Known.matches ?_
  cases v with
  | ref a => exact h a
  | _ => trivial

theorem Object.matches_self (h : ∀ a, objects a a) (hf : ∀ f, frames f f) (o : Object) :
    o.Matches objects frames o where
  shape := by
    cases o.shape with
    | object => exact .object
    | list => exact .list
    | function c => exact .function ⟨rfl, rfl, rfl, List.forall₂_same.2 fun f _ => hf f⟩
    | tagged type extendsObject => exact .tagged type extendsObject
  properties := List.forall₂_same.2 fun e _ => ⟨rfl, e.2.matches_self h⟩

theorem Value.Matches.eq {v v' : Value} (h : v.Matches Eq v') : v = v' := by
  cases h with
  | ref ha => rw [ha]
  | _ => rfl

theorem Binding.Matches.eq {b b' : Binding} (h : b.Matches Eq b') : b = b' := by
  obtain ⟨v, constant⟩ := b
  obtain ⟨v', constant'⟩ := b'
  obtain ⟨hv, hc⟩ := h
  cases hv.eq
  cases hc
  rfl

theorem eq_of_forall₂ {α : Type} {R : α → α → Prop} (hR : ∀ a a', R a a' → a = a')
    {xs xs' : List α} (h : List.Forall₂ R xs xs') : xs = xs' := by
  induction h with
  | nil => rfl
  | cons hx _ ih => rw [hR _ _ hx, ih]

/-- The chain of a function tells its scope. -/
theorem Closure.Matches.eq {c c' : Closure} (h : c.Matches Eq c') : c = c' := by
  obtain ⟨params, body, scope, native⟩ := c
  obtain ⟨params', body', scope', native'⟩ := c'
  obtain ⟨hparams, hbody, hnative, hchain⟩ := h
  have hchain := eq_of_forall₂ (fun _ _ hf => hf) hchain
  have hscope : scope = scope' := by
    rcases scope with _ | ⟨f, outer⟩ <;> rcases scope' with _ | ⟨f', outer'⟩ <;> cases hchain <;>
      rfl
  cases hparams
  cases hbody
  cases hnative
  cases hscope
  rfl

theorem Shape.Matches.eq {shape shape' : Shape} (h : shape.Matches Eq shape') :
    shape = shape' := by
  cases h with
  | function hc => rw [hc.eq]
  | _ => rfl

end

/-- What a value shows does not depend on variables. -/
theorem Store.showWithin_congr {s s' : Store} (h : s'.objects = s.objects) :
    ∀ (depth : Nat) (v : Value), s'.showWithin depth v = s.showWithin depth v := by
  have hobject (a : Address) : s'.object a = s.object a := by rw [Store.object, Store.object, h]
  intro depth
  induction depth with
  | zero =>
    intro v
    cases v with
    | ref a => simp only [Store.showWithin, hobject]
    | _ => rfl
  | succ depth ih =>
    intro v
    cases v with
    | ref a => simp only [Store.showWithin, hobject, ih]
    | _ => rfl

/-! ## Stores that match -/

/-- Corresponding places hold what corresponds, as far as names of variables are in use; addresses
are told apart on both sides; and values that match show the same data. -/
structure Store.Matches (objects : Address → Address → Prop) (frames : FrameId → FrameId → Prop)
    (names : String → Prop) (s s' : Store) : Prop where
  unique {a a' b b' : Address} : objects a a' → objects b b' → (a' = b' ↔ a = b)
  object {a a' : Address} : objects a a' → (s.object a).Matches objects frames (s'.object a')
  binding {f f' : FrameId} {name : String} : frames f f' → names name →
    Option.Rel (Binding.Matches objects) ((s.frame f).vars.find? name)
      ((s'.frame f').vars.find? name)
  shows {v v' : Value} : v.Matches objects v' → s'.show? v' = s.show? v

/-- Stores with the same values match, as far as the same is bound to the names in use. -/
theorem Store.matches_of_eq {names : String → Prop} {s s' : Store} (h : s'.objects = s.objects)
    (hvars : ∀ f name, names name →
      (s'.frame f).vars.find? name = (s.frame f).vars.find? name) :
    s.Matches Eq Eq names s' where
  unique := by
    rintro a _ b _ rfl rfl
    rfl
  object := by
    rintro a _ rfl
    rw [Store.object, Store.object, h]
    exact Object.matches_self (fun _ => rfl) (fun _ => rfl) _
  binding := by
    rintro f _ name rfl hn
    rw [hvars f name hn]
    cases (s.frame f).vars.find? name with
    | none => exact .none
    | some b => exact .some ⟨b.value.matches_self fun _ => rfl, rfl⟩
  shows {v v'} hv := by
    rw [← hv.eq, Store.show?, Store.show?, h]
    exact Store.showWithin_congr h _ v

namespace Store.Matches

variable {objects : Address → Address → Prop} {frames : FrameId → FrameId → Prop}
  {names : String → Prop} {s s' : Store} (h : s.Matches objects frames names s')
include h

/-! ### Names -/

section

variable {scope scope' : Scope} (hs : List.Forall₂ frames scope.chain scope'.chain) {name : String}
  (hn : names name)
include hn

theorem binds_eq {f f' : FrameId} (hf : frames f f') : s'.binds f' name = s.binds f name := by
  have hfound := h.binding hf hn
  unfold binds Table.contains
  generalize (s.frame f).vars.find? name = x, (s'.frame f').vars.find? name = x' at hfound
  cases hfound <;> rfl

include hs

theorem agrees_mayDeclare :
    Agrees (fun _ _ => True) (s.mayDeclare scope name) (s'.mayDeclare scope' name) := by
  obtain ⟨hf, -⟩ := List.forall₂_cons.1 hs
  unfold mayDeclare
  rw [h.binds_eq hn hf]
  split
  · exact .error _
  · exact .ok trivial

theorem rel_resolve? :
    Option.Rel frames (s.resolve? name scope.chain) (s'.resolve? name scope'.chain) := by
  unfold resolve?
  generalize scope.chain = fs, scope'.chain = fs' at hs
  induction hs with
  | nil => exact .none
  | @cons f f' fs fs' hf _ ih =>
    rw [List.find?_cons, List.find?_cons, h.binds_eq hn hf]
    cases s.binds f name with
    | true => exact .some hf
    | false => exact ih

theorem rel_binding? :
    Option.Rel (Binding.Matches objects) (s.binding? scope name) (s'.binding? scope' name) := by
  have hfound := h.rel_resolve? hs hn
  unfold binding?
  generalize s.resolve? name scope.chain = x, s'.resolve? name scope'.chain = x' at hfound
  cases hfound with
  | none => exact .none
  | some hf => exact h.binding hf hn

theorem agrees_binding :
    Agrees (Binding.Matches objects) (s.binding scope name) (s'.binding scope' name) := by
  have hfound := h.rel_binding? hs hn
  unfold Store.binding
  generalize s.binding? scope name = x, s'.binding? scope' name = x' at hfound
  cases hfound with
  | none => exact .error _
  | some hb => exact .ok hb

theorem agrees_lookup :
    Agrees (Value.Matches objects) (s.lookup scope name) (s'.lookup scope' name) :=
  agrees_map (h.agrees_binding hs hn) fun _ _ hb => hb.value

theorem agrees_assignable :
    Agrees frames (s.assignable scope name) (s'.assignable scope' name) := by
  have hconstant : Agrees (fun c c' => c' = c) (s.isConstant scope name)
      (s'.isConstant scope' name) :=
    agrees_map (h.agrees_binding hs hn) fun _ _ hb => hb.constant
  refine agrees_bind hconstant fun c c' hc => ?_
  rw [hc]
  split
  · exact .error _
  · have hfound := h.rel_resolve? hs hn
    unfold resolve
    generalize s.resolve? name scope.chain = x, s'.resolve? name scope'.chain = x' at hfound
    cases hfound with
    | none => exact .error _
    | some hf => exact .ok hf

end

/-! ### Values -/

section

variable {v v' : Value} (hv : v.Matches objects v')
include hv

theorem typeName_eq : s'.typeName v' = s.typeName v := by
  cases hv with
  | ref ha => exact (h.object ha).shape.typeName_eq
  | _ => rfl

theorem key_eq : v'.key s' = v.key s := by
  have ht := h.typeName_eq hv
  cases hv with
  | str t => rfl
  | num n => rfl
  | _ => exact congrArg (fun type => Except.error (Failure.badKey type)) ht

theorem showOrFail_eq : s'.showOrFail v' = s.showOrFail v := by
  unfold showOrFail
  rw [h.shows hv]

theorem lengthOf_eq : s'.lengthOf v' = s.lengthOf v := by
  have ht := h.typeName_eq hv
  cases hv with
  | ref ha =>
    have hkeys := congrArg List.length (h.object ha).shown_keys_eq
    rw [List.length_map, List.length_map] at hkeys
    exact congrArg Except.ok hkeys
  | str t => rfl
  | _ => exact congrArg (fun type => Except.error (Failure.noLength type)) ht

theorem sourceOf_eq : s'.sourceOf v' = s.sourceOf v := by
  have ht := h.typeName_eq hv
  cases hv with
  | @ref a a' ha =>
    have hname := (h.object ha).functionName_eq
    have hshape := (h.object ha).shape
    unfold sourceOf Object.closure? functionSource
    rw [ht]
    dsimp only
    rw [hname]
    generalize (s.object a).shape = shape, (s'.object a').shape = shape' at hshape
    cases hshape with
    | function hc =>
      dsimp only
      rw [hc.params, hc.body, hc.native]
    | _ => rfl
  | _ => exact congrArg (fun type => Except.error (Failure.noSource type)) ht

theorem debug_eq : v'.debug s' = v.debug s := by
  cases hv with
  | @ref a a' ha =>
    have hname := (h.object ha).functionName_eq
    have hkeys := (h.object ha).shown_keys_eq
    have hshape := (h.object ha).shape
    unfold Value.debug
    dsimp only
    rw [hname, hkeys]
    generalize (s.object a).shape = shape, (s'.object a').shape = shape' at hshape
    cases hshape with
    | function hc =>
      dsimp only
      rw [hc.params, hc.native]
    | _ => rfl
  | _ => rfl

end

/-! ### Texts -/

theorem keyText_eq {admits : Native → Prop} {d : Datum}
    (hd : d.Fixed (fun a => objects a a) admits) : d.keyText s' = d.keyText s :=
  hd.keyText_eq fun _ hv => h.debug_eq hv.matches

section

variable {v v' w w' : Value} (hv : v.Matches objects v') (hw : w.Matches objects w')
include hv

theorem display_eq : s'.display v' = s.display v := by
  unfold display
  rw [h.shows hv]
  cases hd : s.show? v with
  | none => rfl
  | some d =>
    have hfixed : d.Fixed (fun _ => False) (fun _ => True) := s.fixed_showWithin _ v d hd
    have htext : d.topText s' = d.topText s := by
      refine hfixed.topText_eq fun u hu => ?_
      cases u with
      | ref a => exact hu.elim
      | _ => rfl
    exact congrArg (Except.mapError Failure.numeric) htext

include hw

/-! ### Operators -/

theorem equals_eq : v'.equals w' = v.equals w := by
  cases hv with
  | ref ha =>
    cases hw with
    | ref hb =>
      unfold Value.equals
      rw [Bool.eq_iff_iff, beq_iff_eq, beq_iff_eq]
      exact h.unique ha hb
    | _ => rfl
  | _ => cases hw <;> rfl

theorem onNumbers_eq (symbol : String) (op : Num → Num → Except Num.Fault Num) :
    Operator.onNumbers s' symbol op v' w' = Operator.onNumbers s symbol op v w := by
  have htv := h.typeName_eq hv
  have htw := h.typeName_eq hw
  have refused : (.error (.notNumbers symbol (s'.typeName v') (s'.typeName w')) :
      Except Failure Value) = .error (.notNumbers symbol (s.typeName v) (s.typeName w)) := by
    rw [htv, htw]
  cases hv with
  | num m => cases hw <;> first | rfl | exact refused
  | _ => exact refused

theorem joinTexts_eq : Operator.joinTexts s' v' w' = Operator.joinTexts s v w := by
  unfold Operator.joinTexts
  rw [h.display_eq hv, h.display_eq hw]

theorem plus_eq : Operator.plus s' v' w' = Operator.plus s v w := by
  have hjoin := h.joinTexts_eq hv hw
  have hsum := h.onNumbers_eq hv hw "+" Num.add
  cases hv with
  | str t => exact hjoin
  | _ =>
    cases hw with
    | str t => exact hjoin
    | _ => exact hsum

theorem apply_eq (symbol : String) :
    Operator.apply s' symbol v' w' = Operator.apply s symbol v w := by
  unfold Operator.apply
  rw [h.plus_eq hv hw, h.equals_eq hv hw]
  split
  · rfl
  · split
    · exact h.onNumbers_eq hv hw _ _
    · rfl

end

end Store.Matches

end Guion
