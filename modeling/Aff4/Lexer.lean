import Aff4.Lib.LittleEndian

/-! The feed lexer of pyflag (lexer.py), whose handlers leave the buffers alone. -/

namespace Aff4.Pyflag

open LittleEndian List

/-- What a handler may change. `objects` are the fields of a derived class. -/
structure LexerVars (σ : Type) where
  state : Bytes
  error : Int
  objects : σ

structure Lexer (σ : Type) extends LexerVars σ where
  buffer : Bytes := []
  processedBuffer : Bytes := []
  processed : Int := 0

/-- A handler gets the end of the match. It returns a state, or none as for `CONTINUE`, or raises. -/
abbrev Handler (σ : Type) := Lexer σ → Nat → Option (Option Bytes) × LexerVars σ

structure TokenRow (σ : Type) where
  applies : Bytes → Bool
  regex : Bytes → Option Nat
  regex_le : ∀ buffer m, regex buffer = some m → m ≤ buffer.length
  token : Bytes
  handlers : List (Handler σ)
  next : Option Bytes

namespace Lexer

variable {σ : Type}

/-- The loop over the handlers of a token, with the next state so far. -/
def callHandlers (m : Nat) :
    List (Handler σ) → Option Bytes → Lexer σ → Option (Option Bytes) × Lexer σ
  | [], next, self => (some next,self)
  | cb :: rest, next, self =>
      match cb self m with
      | (none,vars) => (none,{ self with toLexerVars := vars })
      | (some none,vars) => callHandlers m rest next { self with toLexerVars := vars }
      | (some (some s),vars) =>
          callHandlers m rest (some s) { self with toLexerVars := { vars with state := s } }

def matchRow (self : Lexer σ) (row : TokenRow σ) : Option (TokenRow σ × Nat) :=
  if row.applies self.state then (row.regex self.buffer).map (row,·) else none

def consume (m : Nat) (self : Lexer σ) : Lexer σ :=
  { self with
    processedBuffer := self.processedBuffer ++ self.buffer.take m, buffer := self.buffer.drop m
    processed := self.processed+m }

def discard (self : Lexer σ) : Lexer σ :=
  { self with
    processedBuffer := self.processedBuffer ++ self.buffer.take 1, buffer := self.buffer.drop 1
    error := self.error+1 }

/-- The token that is returned, unless a handler raises, and the lexer afterwards. -/
def nextToken (tokens : List (TokenRow σ)) (atEnd : Bool) (self : Lexer σ) :
    Option (Option Bytes) × Lexer σ :=
  match tokens.findSome? self.matchRow with
  | some (row,m) =>
      match callHandlers m row.handlers row.next (self.consume m) with
      | (none,self) => (none,self)
      | (some next,self) => (some (some row.token),{ self with state := next.getD self.state })
  | none =>
      if atEnd ∧ 0 < self.buffer.length ∨ 1024 < self.buffer.length then
        (some (some "ERROR".toUTF8.toList),self.discard)
      else (some none,self)

def feed (data : Bytes) (self : Lexer σ) : Lexer σ := { self with buffer := self.buffer ++ data }

structure Saved (σ : Type) where
  vars : LexerVars σ
  processed : Int
  processedBuffer : Bytes
  readptr : Int

/-- `save_state` of a lexer whose file is at `tell`, for a match that ends at `m`. -/
def saveState (self : Lexer σ) (tell m : Nat) : Option (Saved σ) :=
  if self.error ≠ 0 then none
  else some ⟨self.toLexerVars,self.processed-m,self.processedBuffer,tell-self.buffer.length-m⟩

/-- `restore_state`, with the offset that the file is set to. -/
def restoreState (saved : Saved σ) : Lexer σ × Int :=
  ({ saved.vars with processed := saved.processed, processedBuffer := saved.processedBuffer },
    saved.readptr)

inductive Call where
  | feed (data : Bytes)
  | nextToken (atEnd : Bool)

def Call.data : Call → Bytes
  | .feed data => data
  | .nextToken _ => []

def call (tokens : List (TokenRow σ)) (self : Lexer σ) : Call → Lexer σ
  | .feed data => self.feed data
  | .nextToken atEnd => (self.nextToken tokens atEnd).2

/-- The call finds no token, and too much in the buffer to wait for more. -/
def Stuck (tokens : List (TokenRow σ)) (self : Lexer σ) : Call → Prop
  | .feed _ => False
  | .nextToken atEnd => tokens.findSome? self.matchRow = none ∧
      (atEnd ∧ 0 < self.buffer.length ∨ 1024 < self.buffer.length)

/-- None of the calls is stuck in the state before it. -/
def Unstuck (tokens : List (TokenRow σ)) : Lexer σ → List Call → Prop
  | _, [] => True
  | self, c :: calls => ¬ self.Stuck tokens c ∧ Unstuck tokens (self.call tokens c) calls

structure Conserves (fed : Bytes) (lexer : Lexer σ) : Prop where
  data : lexer.processedBuffer ++ lexer.buffer = fed
  count : lexer.processed ≤ lexer.processedBuffer.length

lemma callHandlers_vars (m : Nat) (hs : List (Handler σ)) (next : Option Bytes) (s : Lexer σ) :
    ∃ vars, (callHandlers m hs next s).2 = { s with toLexerVars := vars } := by
  induction hs generalizing next s with
  | nil => exact ⟨_,rfl⟩
  | cons cb rest ih =>
    rw [callHandlers]
    split
    · exact ⟨_,rfl⟩
    · exact ih ..
    · exact ih ..

variable (tokens : List (TokenRow σ)) {s : Lexer σ} {fed : Bytes}

/-- A call keeps the data. The count is right after it if it was before, and no byte was
discarded. -/
lemma nextToken_conserves (h : s.Conserves fed) (atEnd : Bool) :
    (s.nextToken tokens atEnd).2.Conserves fed ∧
      ((s.nextToken tokens atEnd).2.processed = (s.nextToken tokens atEnd).2.processedBuffer.length ↔
        s.processed = s.processedBuffer.length ∧ ¬ s.Stuck tokens (.nextToken atEnd)) := by
  have hd := h.data
  have hcn := h.count
  rw [nextToken,Stuck]
  split
  case h_1 row m hm =>
    obtain ⟨row',-,hr⟩ := exists_of_findSome?_eq_some hm
    have hle : m ≤ s.buffer.length := by
      rw [matchRow] at hr
      split at hr
      · obtain ⟨m',hm',he⟩ := Option.map_eq_some_iff.mp hr
        exact (Prod.mk.inj he).2 ▸ row'.regex_le _ _ hm'
      · cases hr
    have hb : (s.consume m).processedBuffer ++ (s.consume m).buffer = fed := by
      simpa [consume] using hd
    have hl : (s.consume m).processed = s.processed+m ∧
        (s.consume m).processedBuffer.length = s.processedBuffer.length+m := by
      simp [consume,min_eq_left hle]
    obtain ⟨vars,hv⟩ := callHandlers_vars m row.handlers row.next (s.consume m)
    rw [hm]
    split
    all_goals
      rename_i hc
      rw [hc] at hv
      subst hv
      refine ⟨⟨hb,?_⟩,?_⟩
      · dsimp only
        omega
      · simp only [reduceCtorEq,false_and,not_false_eq_true,and_true]
        omega
  case h_2 hn =>
    split
    · next hs =>
      have hp : s.discard.processed = s.processed := rfl
      have hl : s.discard.processedBuffer.length = s.processedBuffer.length+1 := by
        simp only [discard,length_append,length_take]
        omega
      refine ⟨⟨by rw [discard,append_assoc,take_append_drop,hd],by dsimp only; omega⟩,?_⟩
      simp only [hn,hs,and_self,not_true_eq_false,and_false,iff_false]
      omega
    · next hs => exact ⟨h,by simp [hs]⟩

/-- A state that is saved and restored goes on at the beginning of its match. Its count is that
offset if the count is right. -/
def Resumes (fed : Bytes) (right : Prop) (self : Lexer σ) : Prop :=
  ∀ m saved, self.saveState fed.length m = some saved →
    (restoreState saved).2 = self.processedBuffer.length-m ∧
    ((restoreState saved).1.processed = (restoreState saved).2 ↔ right)

lemma foldl_conserves (h : s.Conserves fed) (calls : List Call) :
    (calls.foldl (call tokens) s).Conserves (fed ++ calls.flatMap Call.data) ∧
      ((calls.foldl (call tokens) s).processed =
          (calls.foldl (call tokens) s).processedBuffer.length ↔
        s.processed = s.processedBuffer.length ∧ s.Unstuck tokens calls) := by
  induction calls generalizing s fed with
  | nil => simpa [Unstuck] using h
  | cons c calls ih =>
    have hc : (s.call tokens c).Conserves (fed ++ c.data) ∧
        ((s.call tokens c).processed = (s.call tokens c).processedBuffer.length ↔
          s.processed = s.processedBuffer.length ∧ ¬ s.Stuck tokens c) := by
      cases c with
      | feed data => exact ⟨⟨by simp [call,feed,← h.data,Call.data],h.count⟩,by simp [call,feed,Stuck]⟩
      | nextToken atEnd => simpa [call,Call.data] using nextToken_conserves tokens h atEnd
    rw [flatMap_cons,← append_assoc,foldl_cons,Unstuck,← and_assoc,← hc.2]
    exact ih hc.1

/-- No data is lost, but a byte that is discarded is not counted: `processed` is right as long as
no call was stuck. -/
theorem processed_right_iff (vars : LexerVars σ) (calls : List Call) :
    let lexer := calls.foldl (call tokens) { vars with }
    let fed := calls.flatMap Call.data
    lexer.processedBuffer ++ lexer.buffer = fed ∧
      (lexer.processed = lexer.processedBuffer.length ↔ Unstuck tokens { vars with } calls) ∧
      lexer.Resumes fed (Unstuck tokens { vars with } calls) := by
  have hn : Conserves [] ({ vars with } : Lexer σ) := ⟨rfl,le_refl _⟩
  obtain ⟨h,hc⟩ := foldl_conserves tokens hn calls
  rw [length_nil,Nat.cast_zero,eq_self,true_and] at hc
  refine ⟨h.data,hc,fun m saved hs => ?_⟩
  rw [saveState] at hs
  split at hs
  · cases hs
  · cases hs
    have hl := congrArg length h.data
    rw [length_append,nil_append] at hl
    rw [← hc]
    simp only [restoreState]
    omega

def unusedRow : TokenRow Unit := ⟨fun _ => false,fun _ => none,by simp,[],[],none⟩

/-- No row applies, and the byte is discarded. -/
theorem discarded_uncounted :
    let lexer := [Call.feed [65],Call.nextToken true].foldl (call [unusedRow])
      { state := [], error := 0, objects := () }
    lexer.processedBuffer = [65] ∧ lexer.processed = 0 :=
  ⟨rfl,rfl⟩

end Lexer

end Aff4.Pyflag
