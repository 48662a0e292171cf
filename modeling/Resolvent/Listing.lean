/-
# Listings

A store is listed with its facts first and then its rules, each in order of
addition and with its full stop.
-/

import Resolvent.Store

namespace Resolvent

/-- The listing of a store. -/
def Store.listing (store : Store) : String :=
  Text.lines (
    ["", Text.rule, s!"Facts ({store.facts.length}):"] ++
    store.facts.map (fun a => "  " ++ a.text ++ ".") ++
    [s!"Rules ({store.rules.length}):"] ++
    store.rules.map (fun r => "  " ++ r.text ++ ".") ++
    [Text.rule])

end Resolvent
