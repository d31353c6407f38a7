import Gmio.Stream
import Gmio.Memory
import Gmio.StringParse.Iterator
import Gmio.StringParse.Words
import Gmio.StringParse.EatWord
import Gmio.StringParse.EatWordRun
import Gmio.Stl.Data
import Gmio.Stl.DataRun
import Gmio.Endian
import Gmio.Stl.Store
import Gmio.Stl.Header
