import Aff4.Lib.LittleEndian
import Aff4.Lib.Transition
import Mathlib.Data.List.Nodup

/-! The store that expires its oldest objects (`FastStore` of pyflag's Store.py). -/

namespace Aff4.Pyflag

open LittleEndian Transition List Option

/-- `killCb` says whether there is a `kill_cb`. The last two fields are history: the objects that it
was called on, and all that was added. -/
structure FastStore (V : Type) where
  age : List Bytes
  hash : Bytes → Option V
  limit : Nat
  killCb : Bool
  id : Nat
  killed : List V
  added : List (Bytes × V)

namespace FastStore

variable {V : Type}

def new (limit maxSize : Nat) (killCb : Bool) : FastStore V :=
  ⟨[],fun _ => none,if maxSize = 0 then limit else maxSize,killCb,0,[],[]⟩

/-- A key that is not in the dictionary is an error. -/
def expire : Nat → FastStore V → Option (FastStore V)
  | 0, _ => none
  | fuel+1, self =>
      if self.limit < self.age.length then
        match self.age with
        | [] => none
        | x :: age => (self.hash x).bind fun obj => expire fuel { self with
            age, killed := if self.killCb then self.killed ++ [obj] else self.killed
            hash := fun k => if k = x then none else self.hash k }
      else some self

def add (self : FastStore V) (urn : Bytes) (obj : V) : Option (FastStore V) :=
  expire (self.age.length+2) { self with
    hash := fun k => if k = urn then some obj else self.hash k
    age := self.age ++ [urn], added := self.added ++ [(urn,obj)] }

inductive Op (V : Type) where
  | add (urn : Bytes) (obj : V)
  | put (object : V) (pre : Bytes) (key : Option Bytes)
  | get (urn : Bytes)

variable (keyOf : Bytes → Nat → Bytes)

/-- The key that `put` takes. `keyOf` prints the prefix and the number that `id` has become, that
many seconds after the time at which the store was made. -/
def key (self : FastStore V) (pre : Bytes) (key : Option Bytes) : Bytes :=
  if key.getD [] = [] then keyOf pre self.id else key.getD []

def put (self : FastStore V) (object : V) (pre : Bytes) (key : Option Bytes) :
    Option (FastStore V) :=
  (if key.getD [] = [] then { self with id := self.id+1 } else self).add
    (self.key keyOf pre key) object

/-- A call without an exception. That of `get`, for a key that is not there, changes nothing. -/
def step (self : FastStore V) : Op V → Option (FastStore V)
  | .add urn obj => self.add urn obj
  | .put object pre key => self.put keyOf object pre key
  | .get _ => some self

def Fresh (self : FastStore V) : Op V → Prop
  | .add urn _ => urn ∉ self.age
  | .put _ pre key => self.key keyOf pre key ∉ self.age
  | .get _ => True

/-- The store has the last objects that were added, in order and each under a key of its own, and
has killed those before them. -/
structure Holds (gone held : List (Bytes × V)) (store : FastStore V) : Prop where
  added : store.added = gone ++ held
  recent : held = [] → gone = []
  age : store.age = held.map Prod.fst
  nodup : store.age.Nodup
  hash : ∀ k v, store.hash k = some v ↔ (k,v) ∈ held
  bounded : held.length ≤ store.limit
  killed : store.killed = if store.killCb then gone.map Prod.snd else []

variable {gone held : List (Bytes × V)} {self : FastStore V}

lemma add_holds (h : self.Holds gone held) (hl : 0 < self.limit) {urn : Bytes} (obj : V)
    (hnw : urn ∉ self.age) : ∃ next gone held, self.add urn obj = some next ∧
      next.Holds gone held ∧ next.limit = self.limit := by
  have hn : ∀ v, (urn,v) ∉ held := fun v hm => hnw (h.age ▸ mem_map_of_mem hm)
  have hky : ∀ k v, (if k = urn then some obj else self.hash k) = some v ↔
      (k,v) ∈ held ++ [(urn,obj)] := by
    intro k v
    by_cases hk : k = urn
    · simp [hk,hn,eq_comm]
    · simp [hk,h.hash]
  have hnd : (self.age ++ [urn]).Nodup := by
    rw [nodup_append]
    simpa using ⟨h.nodup,fun a ha he => hnw (he ▸ ha)⟩
  rw [add,expire]
  split
  case isFalse hln =>
    refine ⟨_,gone,held ++ [(urn,obj)],rfl,⟨by simp [h.added],by simp,by simp [h.age],hnd,hky,?_,
      h.killed⟩,rfl⟩
    simpa [h.age] using hln
  case isTrue hln =>
    -- One object too many: the oldest goes, and the loop ends.
    cases held with
    | nil => simp [h.age] at hln; omega
    | cons x held =>
      have hx : x.1 ≠ urn := fun hx => hn x.2 (by simp [← hx])
      have hag : self.age = x.1 :: held.map Prod.fst := h.age
      have hb := h.bounded
      simp only [hag,cons_append,nodup_cons] at hnd ⊢
      simp only [hx,if_false,(h.hash x.1 x.2).mpr mem_cons_self,bind_some]
      rw [expire,if_neg (by simpa using hb)]
      refine ⟨_,gone ++ [x],held ++ [(urn,obj)],rfl,⟨by simp [h.added],by simp,by simp,hnd.2,
        fun k v => ?_,by simpa using hb,by simp only [h.killed]; split <;> simp⟩,rfl⟩
      by_cases hk : k = x.1
      · have : (x.1,v) ∉ held ++ [(urn,obj)] := fun hm => hnd.1 (by
          simpa using mem_map_of_mem (f := Prod.fst) hm)
        simp only [hk,if_true,reduceCtorEq,this]
      · simp only [hk,if_false,hky,cons_append,mem_cons]
        exact or_iff_right fun he => hk (congrArg Prod.fst he)

lemma step_holds (h : self.Holds gone held) (hl : 0 < self.limit) {op : Op V}
    (hf : self.Fresh keyOf op) : ∃ next gone held, self.step keyOf op = some next ∧
      next.Holds gone held ∧ next.limit = self.limit := by
  cases op with
  | add urn obj => exact add_holds h hl obj hf
  | get urn => exact ⟨self,gone,held,rfl,h,rfl⟩
  | put object pre key =>
    rw [step,put]
    split
    · have hid : { self with id := self.id+1 }.Holds gone held :=
        ⟨h.added,h.recent,h.age,h.nodup,h.hash,h.bounded,h.killed⟩
      exact add_holds hid hl object hf
    · exact add_holds h hl object hf

lemma run_holds (h : self.Holds gone held) (hl : 0 < self.limit) {ops : List (Op V)}
    (hf : Along (step keyOf) (Fresh keyOf) self ops) :
    ∃ next gone held, run (step keyOf) self ops = some next ∧ next.Holds gone held ∧
      next.limit = self.limit := by
  induction ops generalizing self gone held with
  | nil => exact ⟨self,gone,held,rfl,h,rfl⟩
  | cons op ops ih =>
    obtain ⟨t,_,_,ht,ht',hlm⟩ := step_holds keyOf h hl hf.1
    obtain ⟨u,gone,held,hu,hu',hlm'⟩ := ih ht' (hlm ▸ hl) (hf.2 t ht)
    exact ⟨u,gone,held,by rw [run,ht]; exact hu,hu',hlm'.trans hlm⟩

/-- The store has the objects added last, at most `limit`, and `kill_cb` was called on the
others. -/
def Retrieves (self : FastStore V) (limit : Nat) : Prop := ∃ gone held,
  self.added = gone ++ held ∧ held.length ≤ limit ∧ (∀ k v, self.hash k = some v ↔ (k,v) ∈ held) ∧
    (∀ e, self.added.getLast? = some e → self.hash e.1 = some e.2) ∧
    self.killed = if self.killCb then gone.map Prod.snd else []

/-- As long as no key is stored again while it is held, no call of `add` or `put` raises. -/
theorem run_retrieves {limit : Nat} (hl : 1 ≤ limit) (maxSize : Nat) (killCb : Bool)
    {ops : List (Op V)} (hf : Along (step keyOf) (Fresh keyOf) (new limit maxSize killCb) ops) :
    ∃ self, run (step keyOf) (new limit maxSize killCb) ops = some self ∧
      self.Retrieves (if maxSize = 0 then limit else maxSize) := by
  have hlm : 0 < if maxSize = 0 then limit else maxSize := by split <;> omega
  have hnw : (new limit maxSize killCb : FastStore V).Holds [] [] :=
    ⟨rfl,by simp,rfl,by simp [new],by simp [new],by simp,by simp [new]⟩
  obtain ⟨self,gone,held,hr,h,hlm'⟩ := run_holds keyOf hnw hlm hf
  refine ⟨self,hr,gone,held,h.added,h.bounded.trans_eq hlm',h.hash,fun e he => (h.hash _ _).mpr ?_,
    h.killed⟩
  have hne : held ≠ [] := fun hn => by simp [h.added,hn,h.recent hn] at he
  rw [h.added,getLast?_append_of_ne_nil _ hne] at he
  exact mem_of_getLast? he

theorem run_retrieves_two : ∃ self,
    run (step fun _ _ => [1]) (new 1 0 true) [Op.add [2] 3,Op.put 4 [] none] = some self ∧
      self.Retrieves 1 := by
  refine run_retrieves _ (Nat.le_refl 1) 0 true ⟨not_mem_nil,fun t ht => ⟨?_,fun _ _ => trivial⟩⟩
  cases ht
  simp [Fresh,key,new]

/-- A key that is stored twice is not there afterwards, and its next expiry raises. -/
theorem repeated_key_lost :
    ((run (step fun _ _ => []) (new 1 0 true) [Op.add [2] 3,Op.add [2] 4]).map fun s =>
      (s.added.getLast?,s.hash [2])) = some (some ([2],4),none) ∧
    run (step fun _ _ => []) (new 1 0 true) [Op.add [2] 3,Op.add [2] 4,Op.add [5] 6] = none :=
  ⟨rfl,rfl⟩

end FastStore

end Aff4.Pyflag
