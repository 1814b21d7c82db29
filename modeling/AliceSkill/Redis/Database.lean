import AliceSkill.Text.Regex
import Mathlib.Data.Int.Order.Basic
import Mathlib.Data.List.AList
import Mathlib.Data.List.Forall2
import Mathlib.Data.Option.Defs

/-!
# A database of keys that expire

One Redis database, as far as texts, lists and streams go: a finite map from
keys to values, each with the moment until which it is kept.  A key whose time
is over is not there any more, whatever has become of its memory.

The commands are given by what they answer and by what they leave behind.
`exec_find?_ne` is the frame: a command touches no key but its own.
-/

namespace Redis

open Text

abbrev Fields := List (Str × Str)

/-- An item of a stream, whose id is its position; it is acknowledged by the
one group that reads the stream. -/
structure Item where
  fields : Fields
  acked : Bool
  deriving DecidableEq

inductive Value where
  | text (t : Str)
  | list (items : List Str)
  | stream (items : List Item)
  deriving DecidableEq

/-- A value and the last moment at which it is there, in milliseconds. -/
structure Entry where
  value : Value
  deadline : Option ℕ
  deriving DecidableEq

/-- Redis keeps a key through the millisecond of its deadline. -/
def Entry.alive (now : ℕ) (e : Entry) : Bool :=
  match e.deadline with
  | none => true
  | some d => now ≤ d

structure Database where
  entries : AList fun _ : Str => Entry
  now : ℕ

namespace Database

variable (db : Database)

def find? (key : Str) : Option Entry :=
  (db.entries.lookup key).filter (Entry.alive db.now)

def value? (key : Str) : Option Value := (db.find? key).map Entry.value

def put (key : Str) (e : Entry) : Database :=
  { db with entries := db.entries.insert key e }

def remove (key : Str) : Database :=
  { db with entries := db.entries.erase key }

/-- Time passes. -/
def tick (ms : ℕ) : Database := { db with now := db.now + ms }

/-- The deadline of a key that is kept for some seconds from now on. -/
def deadline (seconds : ℤ) : ℕ := db.now + (1000 * seconds).toNat

/-- Nothing is stored. -/
def empty (now : ℕ) : Database := ⟨∅, now⟩

variable {db} {key key' : Str} {e : Entry}

@[simp] theorem put_now : (db.put key e).now = db.now := rfl

@[simp] theorem remove_now : (db.remove key).now = db.now := rfl

theorem find?_put_self (h : e.alive db.now = true) :
    (db.put key e).find? key = some e := by
  rw [find?, put, AList.lookup_insert, Option.filter_some, if_pos h]

theorem find?_put_ne (h : key' ≠ key) :
    (db.put key e).find? key' = db.find? key' := by
  rw [find?, put, AList.lookup_insert_ne h, find?]

theorem find?_remove_self : (db.remove key).find? key = none := by
  rw [find?, remove, AList.lookup_erase, Option.filter_none]

theorem find?_remove_ne (h : key' ≠ key) :
    (db.remove key).find? key' = db.find? key' := by
  rw [find?, remove, AList.lookup_erase_ne h, find?]

theorem find?_empty (now : ℕ) : (empty now).find? key = none := by
  rw [find?, empty, AList.lookup_empty, Option.filter_none]

/-- What is there is alive. -/
theorem alive_of_find? (h : db.find? key = some e) : e.alive db.now = true := by
  rw [find?, Option.filter_eq_some_iff] at h
  exact h.2

theorem alive_of_le {now now' : ℕ} (h : now ≤ now') (ha : e.alive now' = true) :
    e.alive now = true := by
  obtain ⟨value, deadline⟩ := e
  cases deadline with
  | none => rfl
  | some d =>
      simp only [Entry.alive, decide_eq_true_eq] at ha ⊢
      exact Nat.le_trans h ha

/-- Time takes keys away and leaves the others as they are. -/
theorem find?_tick (ms : ℕ) :
    (db.tick ms).find? key =
      (db.find? key).filter (Entry.alive (db.now + ms)) := by
  rw [find?, find?, tick, Option.filter_filter]
  congr 1
  funext e
  by_cases ha : e.alive (db.now + ms) = true
  · rw [ha, alive_of_le (Nat.le_add_right _ _) ha]
    rfl
  · rw [Bool.not_eq_true] at ha
    rw [ha, Bool.and_false]

theorem alive_deadline (v : Value) (seconds : ℤ) :
    Entry.alive db.now ⟨v, some (db.deadline seconds)⟩ = true := by
  simp [Entry.alive, deadline]

/-- A key keeps its deadline when its value changes. -/
theorem alive_of_value {v : Value} {d : Option ℕ} (v' : Value)
    (h : db.find? key = some ⟨v, d⟩) : Entry.alive db.now ⟨v', d⟩ = true := by
  have ha := alive_of_find? h
  exact ha

end Database

/-- The part of a list between two bounds, both included; negative ones are
counted from the end. -/
def range {α : Type} (start stop : ℤ) (items : List α) : List α :=
  let n : ℤ := items.length
  let start := if start < 0 then max 0 (n + start) else start
  let stop := min (if stop < 0 then n + stop else stop) (n - 1)
  if start > stop then []
  else (items.drop start.toNat).take (stop - start + 1).toNat

/-- Lists that correspond item by item have corresponding parts. -/
theorem forall₂_range {α β : Type} {P : α → β → Prop} {xs : List α} {ys : List β}
    (h : List.Forall₂ P xs ys) (start stop : ℤ) :
    List.Forall₂ P (range start stop xs) (range start stop ys) := by
  simp only [range, h.length_eq]
  split_ifs <;>
    first
    | exact .nil
    | exact List.forall₂_take _ (List.forall₂_drop _ h)

theorem forall₂_getElem? {α β : Type} {P : α → β → Prop} {xs : List α}
    {ys : List β} (h : List.Forall₂ P xs ys) (i : ℕ) :
    Option.Rel P xs[i]? ys[i]? := by
  induction h generalizing i with
  | nil => exact .none
  | cons hxy _ ih =>
      cases i with
      | zero => exact .some hxy
      | succ i => exact ih i

/-- So do lists of which one item is changed. -/
theorem forall₂_modify {α β : Type} {P : α → β → Prop} {f : α → α} {g : β → β}
    {xs : List α} {ys : List β} (h : List.Forall₂ P xs ys)
    (hfg : ∀ x y, P x y → P (f x) (g y)) (i : ℕ) :
    List.Forall₂ P (xs.modify i f) (ys.modify i g) := by
  induction h generalizing i with
  | nil =>
      rw [List.modify_nil, List.modify_nil]
      exact .nil
  | cons hxy hrest ih =>
      cases i with
      | zero => exact .cons (hfg _ _ hxy) hrest
      | succ i => exact .cons hxy (ih i)

/-! ## Commands -/

inductive Command where
  | get (key : Str)
  | set (key value : Str) (ex : ℤ) (nx : Bool)
  | del (key : Str)
  | lrange (key : Str) (start stop : ℤ)
  | rpush (key item : Str)
  | ltrim (key : Str) (start stop : ℤ)
  | expire (key : Str) (seconds : ℤ)
  | xadd (key : Str) (fields : Fields)
  | xack (key : Str) (id : ℕ)
  deriving DecidableEq

inductive Reply where
  | nil
  | ok
  | int (n : ℤ)
  | text (t : Str)
  | list (items : List Str)
  | error
  deriving DecidableEq

namespace Command

/-- The key a command works on. -/
def key : Command → Str
  | get key => key
  | set key .. => key
  | del key => key
  | lrange key .. => key
  | rpush key _ => key
  | ltrim key .. => key
  | expire key _ => key
  | xadd key _ => key
  | xack key _ => key

/-- What a command answers and leaves behind; a value of the wrong type gives
an error and stays as it is. -/
def exec (db : Database) : Command → Reply × Database
  | get key =>
      match db.find? key with
      | none => (.nil, db)
      | some ⟨.text t, _⟩ => (.text t, db)
      | some _ => (.error, db)
  | set key value ex nx =>
      if ex ≤ 0 then (.error, db)
      else if nx = true ∧ (db.find? key).isSome = true then (.nil, db)
      else (.ok, db.put key ⟨.text value, some (db.deadline ex)⟩)
  | del key =>
      (.int (if (db.find? key).isSome then 1 else 0), db.remove key)
  | lrange key start stop =>
      match db.find? key with
      | none => (.list [], db)
      | some ⟨.list items, _⟩ => (.list (range start stop items), db)
      | some _ => (.error, db)
  | rpush key item =>
      match db.find? key with
      | none => (.int 1, db.put key ⟨.list [item], none⟩)
      | some ⟨.list items, d⟩ =>
          (.int (items.length + 1), db.put key ⟨.list (items ++ [item]), d⟩)
      | some _ => (.error, db)
  | ltrim key start stop =>
      match db.find? key with
      | none => (.ok, db)
      | some ⟨.list items, d⟩ =>
          -- a list without items is not kept
          (.ok, if range start stop items = [] then db.remove key
            else db.put key ⟨.list (range start stop items), d⟩)
      | some _ => (.error, db)
  | expire key seconds =>
      match db.find? key with
      | none => (.int 0, db)
      | some e =>
          (.int 1, if seconds ≤ 0 then db.remove key
            else db.put key ⟨e.value, some (db.deadline seconds)⟩)
  | xadd key fields =>
      match db.find? key with
      | none => (.ok, db.put key ⟨.stream [⟨fields, false⟩], none⟩)
      | some ⟨.stream items, d⟩ =>
          (.ok, db.put key ⟨.stream (items ++ [⟨fields, false⟩]), d⟩)
      | some _ => (.error, db)
  | xack key id =>
      match db.find? key with
      | none => (.int 0, db)
      | some ⟨.stream items, d⟩ =>
          (.int 1, db.put key
            ⟨.stream (items.modify id fun item => { item with acked := true }), d⟩)
      | some _ => (.error, db)

/-- What a command can leave behind. -/
theorem exec_cases (c : Command) (db : Database) :
    (c.exec db).2 = db ∨ (c.exec db).2 = db.remove c.key ∨
      ∃ e, (c.exec db).2 = db.put c.key e := by
  cases c with
  | get key =>
      left
      simp only [exec]
      split <;> rfl
  | set key value ex nx =>
      simp only [exec]
      split_ifs
      · exact Or.inl rfl
      · exact Or.inl rfl
      · exact Or.inr (Or.inr ⟨_, rfl⟩)
  | del key => exact Or.inr (Or.inl rfl)
  | lrange key start stop =>
      left
      simp only [exec]
      split <;> rfl
  | rpush key item =>
      simp only [exec]
      split
      · exact Or.inr (Or.inr ⟨_, rfl⟩)
      · exact Or.inr (Or.inr ⟨_, rfl⟩)
      · exact Or.inl rfl
  | ltrim key start stop =>
      simp only [exec]
      split
      · exact Or.inl rfl
      · split_ifs
        · exact Or.inr (Or.inl rfl)
        · exact Or.inr (Or.inr ⟨_, rfl⟩)
      · exact Or.inl rfl
  | expire key seconds =>
      simp only [exec]
      split
      · exact Or.inl rfl
      · split_ifs
        · exact Or.inr (Or.inl rfl)
        · exact Or.inr (Or.inr ⟨_, rfl⟩)
  | xadd key fields =>
      simp only [exec]
      split
      · exact Or.inr (Or.inr ⟨_, rfl⟩)
      · exact Or.inr (Or.inr ⟨_, rfl⟩)
      · exact Or.inl rfl
  | xack key id =>
      simp only [exec]
      split
      · exact Or.inl rfl
      · exact Or.inr (Or.inr ⟨_, rfl⟩)
      · exact Or.inl rfl

/-- No other key is touched. -/
theorem exec_find?_ne (c : Command) (db : Database) {k : Str} (h : k ≠ c.key) :
    (c.exec db).2.find? k = db.find? k := by
  obtain hsame | hremove | ⟨e, hput⟩ := c.exec_cases db
  · rw [hsame]
  · rw [hremove, Database.find?_remove_ne h]
  · rw [hput, Database.find?_put_ne h]

/-- Commands take no time. -/
theorem exec_now (c : Command) (db : Database) : (c.exec db).2.now = db.now := by
  obtain hsame | hremove | ⟨e, hput⟩ := c.exec_cases db
  · rw [hsame]
  · rw [hremove, Database.remove_now]
  · rw [hput, Database.put_now]

/-- The commands of a transaction. -/
def runAll : List Command → Database → List Reply × Database
  | [], db => ([], db)
  | c :: cs, db =>
      let r := c.exec db
      let rs := runAll cs r.2
      (r.1 :: rs.1, rs.2)

@[simp] theorem runAll_singleton (c : Command) (db : Database) :
    runAll [c] db = ([(c.exec db).1], (c.exec db).2) := rfl

theorem runAll_now (cs : List Command) (db : Database) :
    (runAll cs db).2.now = db.now := by
  induction cs generalizing db with
  | nil => rfl
  | cons c cs ih => exact (ih _).trans (c.exec_now db)

theorem runAll_find?_ne (cs : List Command) (db : Database) {k : Str}
    (h : ∀ c ∈ cs, k ≠ c.key) : (runAll cs db).2.find? k = db.find? k := by
  induction cs generalizing db with
  | nil => rfl
  | cons c cs ih =>
      have hcs := ih (c.exec db).2 fun c' hc' => h c' (List.mem_cons_of_mem _ hc')
      exact hcs.trans (c.exec_find?_ne db (h c List.mem_cons_self))

end Command

/-! ## Commands on values of the right type -/

section

variable {db : Database} {key : Str}

theorem find?_of_value? {v : Value} (h : db.value? key = some v) :
    ∃ d, db.find? key = some ⟨v, d⟩ := by
  obtain ⟨⟨v', d⟩, hfind, rfl⟩ := Option.map_eq_some_iff.mp h
  exact ⟨d, hfind⟩

theorem value?_of_find? {v : Value} {d : Option ℕ}
    (h : db.find? key = some ⟨v, d⟩) : db.value? key = some v := by
  rw [Database.value?, h]
  rfl

theorem find?_eq_none (h : db.value? key = none) : db.find? key = none :=
  Option.map_eq_none_iff.mp h

namespace Command

theorem get_none (h : db.value? key = none) :
    (get key).exec db = (.nil, db) := by
  simp only [exec, find?_eq_none h]

theorem get_text {t : Str} (h : db.value? key = some (.text t)) :
    (get key).exec db = (.text t, db) := by
  obtain ⟨d, hfind⟩ := find?_of_value? h
  simp only [exec, hfind]

variable {ex : ℤ} {t : Str}

theorem value?_put_deadline (v : Value) (seconds : ℤ) :
    (db.put key ⟨v, some (db.deadline seconds)⟩).value? key = some v :=
  value?_of_find? (Database.find?_put_self (Database.alive_deadline v seconds))

theorem set_reply (hex : 0 < ex) : ((set key t ex false).exec db).1 = .ok := by
  simp only [exec, if_neg (Int.not_le.mpr hex), Bool.false_eq_true, false_and,
    if_false]

theorem set_value? (hex : 0 < ex) :
    ((set key t ex false).exec db).2.value? key = some (.text t) := by
  simp only [exec, if_neg (Int.not_le.mpr hex), Bool.false_eq_true, false_and,
    if_false]
  exact value?_put_deadline _ _

theorem setNx_reply (hex : 0 < ex) : ((set key t ex true).exec db).1 =
    if (db.value? key).isSome then .nil else .ok := by
  simp only [exec, if_neg (Int.not_le.mpr hex), true_and, Database.value?,
    Option.isSome_map]
  split_ifs <;> rfl

theorem setNx_value? (hex : 0 < ex) : ((set key t ex true).exec db).2.value? key =
    if (db.value? key).isSome then db.value? key else some (.text t) := by
  simp only [exec, if_neg (Int.not_le.mpr hex), true_and, Database.value?,
    Option.isSome_map]
  split_ifs
  · rfl
  · exact value?_put_deadline _ _

theorem del_value? : ((del key).exec db).2.value? key = none := by
  rw [Database.value?, exec, Database.find?_remove_self, Option.map_none]

/-- The items of a stream; one that is not there has none. -/
def streamItems : Option Value → Option (List Item)
  | none => some []
  | some (.stream items) => some items
  | some _ => none

theorem find?_of_streamItems {items : List Item}
    (h : streamItems (db.value? key) = some items) :
    (items = [] ∧ db.find? key = none) ∨
      ∃ d, db.find? key = some ⟨.stream items, d⟩ := by
  cases hvalue : db.value? key with
  | none =>
      rw [hvalue] at h
      exact Or.inl ⟨(Option.some.inj h).symm, find?_eq_none hvalue⟩
  | some v =>
      rw [hvalue] at h
      cases v with
      | stream items' =>
          cases h
          exact Or.inr (find?_of_value? hvalue)
      | _ => cases h

theorem xadd_of_streamItems {items : List Item}
    (h : streamItems (db.value? key) = some items) (fields : Fields) :
    ((xadd key fields).exec db).1 = .ok ∧
      ((xadd key fields).exec db).2.find? key =
        some ⟨.stream (items ++ [⟨fields, false⟩]),
          (db.find? key).bind Entry.deadline⟩ := by
  obtain ⟨hnil, hfind⟩ | ⟨d, hfind⟩ := find?_of_streamItems h
  · simp only [exec, hfind, hnil, List.nil_append]
    exact ⟨trivial, Database.find?_put_self rfl⟩
  · simp only [exec, hfind]
    exact ⟨trivial, Database.find?_put_self
      (Database.alive_of_value _ hfind)⟩

theorem xack_of_streamItems {items : List Item} {i : ℕ}
    (h : streamItems (db.value? key) = some items) :
    ((xack key i).exec db).1 ≠ .error ∧
      streamItems (((xack key i).exec db).2.value? key) =
        some (items.modify i fun item => { item with acked := true }) ∧
      ∀ e, ((xack key i).exec db).2.find? key = some e →
        e.deadline = (db.find? key).bind Entry.deadline := by
  obtain ⟨hnil, hfind⟩ | ⟨d, hfind⟩ := find?_of_streamItems h
  · simp only [exec, hfind, hnil]
    refine ⟨Reply.noConfusion, ?_, ?_⟩
    · rw [Database.value?, hfind, List.modify_nil]
      rfl
    · intro e he
      cases he
  · have hput := @Database.find?_put_self db key _
      (Database.alive_of_value (.stream (items.modify i fun item =>
        { item with acked := true })) hfind)
    simp only [exec, hfind]
    refine ⟨Reply.noConfusion, ?_, ?_⟩
    · rw [value?_of_find? hput]
      rfl
    · intro e he
      rw [hput] at he
      rw [← Option.some.inj he]
      rfl

end Command

end

/-! ## Lists that are appended to -/

/-- A list without items is no value. -/
def listValue (items : List Str) : Option Value :=
  if items = [] then none else some (.list items)

section

variable {db : Database} {key : Str} {items : List Str}

theorem find?_of_listValue (h : db.value? key = listValue items) :
    (items = [] ∧ db.find? key = none) ∨
      ∃ d, db.find? key = some ⟨.list items, d⟩ := by
  by_cases hnil : items = []
  · rw [listValue, if_pos hnil, Database.value?, Option.map_eq_none_iff] at h
    exact Or.inl ⟨hnil, h⟩
  · rw [listValue, if_neg hnil] at h
    exact Or.inr (find?_of_value? h)

theorem lrange_of_listValue (h : db.value? key = listValue items)
    (start stop : ℤ) :
    (Command.lrange key start stop).exec db =
      (.list (range start stop items), db) := by
  obtain ⟨hnil, hfind⟩ | ⟨d, hfind⟩ := find?_of_listValue h
  · have hempty : range start stop ([] : List Str) = [] := by
      simp [range]
    simp only [Command.exec, hfind, hnil, hempty]
  · simp only [Command.exec, hfind]

theorem rpush_of_listValue (h : db.value? key = listValue items) (item : Str) :
    ∃ n d, (Command.rpush key item).exec db =
      (.int n, db.put key ⟨.list (items ++ [item]), d⟩) ∧
      Entry.alive db.now ⟨.list (items ++ [item]), d⟩ = true := by
  obtain ⟨hnil, hfind⟩ | ⟨d, hfind⟩ := find?_of_listValue h
  · refine ⟨1, none, ?_, rfl⟩
    simp only [Command.exec, hfind, hnil, List.nil_append]
  · refine ⟨items.length + 1, d, ?_, Database.alive_of_value _ hfind⟩
    simp only [Command.exec, hfind]

theorem ltrim_of_find? {d : Option ℕ} (h : db.find? key = some ⟨.list items, d⟩)
    (start stop : ℤ) :
    ∃ db', (Command.ltrim key start stop).exec db = (.ok, db') ∧
      db'.now = db.now ∧
      db'.value? key = listValue (range start stop items) := by
  refine ⟨((Command.ltrim key start stop).exec db).2, ?_,
    Command.exec_now _ db, ?_⟩
  · simp only [Command.exec, h]
  · simp only [Command.exec, h, listValue]
    split_ifs
    · rw [Database.value?, Database.find?_remove_self, Option.map_none]
    · exact value?_of_find?
        (Database.find?_put_self (Database.alive_of_value _ h))

namespace Command

variable {seconds : ℤ}

theorem expire_reply : ((expire key seconds).exec db).1 ≠ .error := by
  simp only [exec]
  split <;> exact Reply.noConfusion

/-- A deadline in the future leaves the value alone. -/
theorem expire_value? (h : 0 < seconds) :
    ((expire key seconds).exec db).2.value? key = db.value? key := by
  cases hfind : db.find? key with
  | none => simp only [exec, hfind]
  | some e =>
      simp only [exec, hfind, if_neg (Int.not_le.mpr h)]
      rw [value?_of_find? (Database.find?_put_self
        (Database.alive_deadline e.value seconds)), Database.value?, hfind]
      rfl

theorem expire_deadline (h : 0 < seconds) {e : Entry}
    (he : ((expire key seconds).exec db).2.find? key = some e) :
    e.deadline = some (db.deadline seconds) := by
  cases hfind : db.find? key with
  | none =>
      simp only [exec, hfind] at he
      cases he
  | some e' =>
      simp only [exec, hfind, if_neg (Int.not_le.mpr h)] at he
      rw [Database.find?_put_self
        (Database.alive_deadline e'.value seconds)] at he
      rw [← Option.some.inj he]

end Command

/-- Something is appended to a list, of which a part is kept for some time. -/
theorem append_trim_expire (h : db.value? key = listValue items) (item : Str)
    (start stop : ℤ) {seconds : ℤ} (hpos : 0 < seconds) :
    let r := Command.runAll [.rpush key item, .ltrim key start stop,
      .expire key seconds] db
    (∀ reply ∈ r.1, reply ≠ .error) ∧
      r.2.value? key = listValue (range start stop (items ++ [item])) ∧
      ∀ e, r.2.find? key = some e → e.deadline = some (db.deadline seconds) := by
  intro r
  obtain ⟨n, d, hpush, halive⟩ := rpush_of_listValue h item
  have hfind := @Database.find?_put_self db key _ halive
  obtain ⟨db', htrim, hnow, hvalue⟩ := ltrim_of_find? hfind start stop
  have hr : r = ([.int n, .ok, ((Command.expire key seconds).exec db').1],
      ((Command.expire key seconds).exec db').2) := by
    simp only [r, Command.runAll, hpush, htrim]
  have hdeadline : db'.deadline seconds = db.deadline seconds := by
    rw [Database.deadline, Database.deadline, hnow, Database.put_now]
  rw [hr]
  refine ⟨?_, ?_, ?_⟩
  · simp [Command.expire_reply]
  · rw [← hvalue, Command.expire_value? hpos]
  · intro e he
    rw [← hdeadline]
    exact Command.expire_deadline hpos he

end

/-! ## Deadlines -/

section Deadlines

variable {db : Database} {key : Str} {e : Entry}

namespace Command

end Command

end Deadlines

end Redis
