/-! Fields in order: lists of named values. The first field of a name counts, and putting a
value under a name keeps its place or opens one at the end. -/

namespace Conform.Fields

def get? {α : Type _} (key : String) : List (String × α) → Option α
  | [] => none
  | (k, v) :: fs => if k = key then some v else get? key fs

def put {α : Type _} (key : String) (value : α) : List (String × α) → List (String × α)
  | [] => [(key, value)]
  | (k, v) :: fs => if k = key then (key, value) :: fs else (k, v) :: put key value fs

/-- One field per name, at the place of its first and with the value of its last occurrence. -/
def collect {α : Type _} (fs : List (String × α)) : List (String × α) :=
  fs.foldl (fun acc f => put f.1 f.2 acc) []

def names {α : Type _} (fs : List (String × α)) : List String := fs.map (·.1)

theorem get?_put_self {α : Type _} (key : String) (value : α) (fs : List (String × α)) :
    get? key (put key value fs) = some value := by
  induction fs with
  | nil => simp [put, get?]
  | cons f fs ih =>
    simp only [put]
    split <;> simp_all [get?]

theorem get?_put_of_ne {α : Type _} {key other : String} (h : other ≠ key) (value : α)
    (fs : List (String × α)) : get? other (put key value fs) = get? other fs := by
  induction fs with
  | nil => simp [put, get?, Ne.symm h]
  | cons f fs ih =>
    simp only [put]
    split <;> simp_all [get?, Ne.symm h]

end Conform.Fields
