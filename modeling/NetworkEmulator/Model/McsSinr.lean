/-
The SINR each MCS needs, the table `MCS_SINR` of `include/phy_layer/phy_l_definitions.h`.

The rows of one modulation and one size of a resource block group are those for one, two,
three and four layers; a row has one threshold, in dB, for each MCS.
-/
import Mathlib.Data.Rat.Defs
import Mathlib.Algebra.Order.Field.Rat

namespace NetworkEmulator

/-- `modulation_m`, the first index of the tables: 0 is QAM64, 1 is QAM256. -/
inductive Modulation where
  | qam64
  | qam256
  deriving DecidableEq, Repr

/-- `MCS_SINR[0]`. -/
def mcsSinrQam64 : List (List (List ℚ)) :=
  [[[-3.766204655135171, -3.483821881094615, -2.3990650886392424, -0.30710476275427684,
     1.5522568795244887, 2.7813969898229836, 3.959388684696476, 5.392836920995833,
     6.607733865715257, 7.660628226829409, 7.671600128675673, 9.449370528319715,
     10.669331854985533, 11.719638711018984, 12.728256667571717, 13.569475949475628,
     13.936603860730719, 14.392351442130796, 14.932994026223826, 15.552401510007101,
     19.141310308743986, 19.67016884028069, 19.98435536374271, 20.533855265805848,
     20.834021279729132, 21.246177044899436, 21.60907756072346, 21.891147057127306],
    [-3.6326702876511723, -3.4410640512130715, -2.385540826650082, -0.3400294310250913,
     1.4859375422360626, 2.7197424195165705, 3.880904160634012, 5.228324012102115,
     6.45827503915915, 7.49432401697146, 7.507460868622632, 9.24743962170329,
     10.487343770828994, 11.52552911461744, 12.519442934633107, 13.259967775175063,
     13.737779372530508, 14.005239766543646, 14.729867317253637, 15.197557752602426,
     18.842886936757818, 19.325595937845794, 19.76553906378311, 20.06363453983639,
     20.523888501482997, 20.8620656312617, 21.15567807771223, 21.597264739853575],
    [-3.63626465759799, -3.472196072321434, -2.4314024549390147, -0.4041602775226308,
     1.3882653991619347, 2.6330233509127217, 3.798444118421944, 5.026597824711294,
     6.287922538661911, 7.3227596404797195, 7.338842696102601, 8.99627237338554,
     10.27232858782907, 11.336135304513121, 12.285613833259008, 12.976875511061913,
     13.556779256138212, 13.857040910624322, 14.51998928622917, 14.922628257586565,
     18.64987327058321, 18.971835308042973, 19.516460983439053, 19.85369572466377,
     20.221353661336405, 20.636468390048073, 20.87773122551552, 21.231922124258997],
    [-3.6692141964854903, -3.5068689336556607, -2.48141208679468, -0.4745356315504419,
     1.28108839802983, 2.553865741577055, 3.7181491198778165, 4.936189226833904,
     6.100325472712491, 7.095801218072429, 7.116430454855207, 8.908904480509147,
     10.04266797209862, 11.093589823222857, 12.022607103513186, 12.86249661899535,
     13.354904459499602, 13.724041242773945, 14.257378290235337, 14.788800154686601,
     18.486280383775178, 18.846833230822213, 19.23595396068166, 19.684155602843934,
     19.932799502244727, 20.3874846291001, 20.70260080807233, 20.939229104123548]],
   [[-3.6326702876511723, -3.4410640512130715, -2.385540826650082, -0.3400294310250913,
     1.4859375422360626, 2.7197424195165705, 3.880904160634012, 5.228324012102115,
     6.45827503915915, 7.49432401697146, 7.507460868622632, 9.24743962170329,
     10.487343770828994, 11.52552911461744, 12.519442934633107, 13.259967775175063,
     13.737779372530508, 14.005239766543646, 14.729867317253637, 15.197557752602426,
     18.842886936757818, 19.325595937845794, 19.76553906378311, 20.06363453983639,
     20.523888501482997, 20.8620656312617, 21.15567807771223, 21.597264739853575],
    [-3.6692141964854903, -3.5068689336556607, -2.48141208679468, -0.4745356315504419,
     1.28108839802983, 2.553865741577055, 3.7181491198778165, 4.936189226833904,
     6.100325472712491, 7.095801218072429, 7.116430454855207, 8.908904480509147,
     10.04266797209862, 11.093589823222857, 12.022607103513186, 12.86249661899535,
     13.354904459499602, 13.724041242773945, 14.257378290235337, 14.788800154686601,
     18.486280383775178, 18.846833230822213, 19.23595396068166, 19.684155602843934,
     19.932799502244727, 20.3874846291001, 20.70260080807233, 20.939229104123548],
    [-3.7526239385493843, -3.620843069515682, -2.6071885279081646, -0.6237904261408894,
     1.0449801498008524, 2.363085929237874, 3.5664130668928706, 4.812581668312702,
     5.901882872639449, 6.896983770047201, 6.904792598505758, 8.746626907043927,
     9.866400182732132, 10.877895358400634, 11.831589237197127, 12.681423779633844,
     12.953375174162812, 13.419511254555422, 13.912938821703866, 14.498781390072216,
     17.989438912699065, 18.551093412455053, 18.88559113850942, 19.278052721528873,
     19.66554079723166, 19.915344390764407, 20.281648203256697, 20.66347373923985],
    [-3.8606705155877923, -3.7374141463497432, -2.7517835012555767, -0.784754511509069,
     0.9182397301384075, 2.1587766361189256, 3.3809562340538446, 4.671118600232297,
     5.7827067630694104, 6.776225008724735, 6.785317111405539, 8.596946417198012,
     9.724734040135687, 10.715873419477015, 11.663579711812497, 12.431055534492145,
     12.805213957635019, 13.040033711188144, 13.73194348908802, 14.112396519715345,
     17.820287392613643, 18.215947108725977, 18.661798350956563, 18.924539739708138,
     19.32455433127137, 19.72116420690463, 19.9189584578034, 20.303483388932367]],
   [[-3.6692141964854903, -3.5068689336556607, -2.48141208679468, -0.4745356315504419,
     1.28108839802983, 2.553865741577055, 3.7181491198778165, 4.936189226833904,
     6.100325472712491, 7.095801218072429, 7.116430454855207, 8.908904480509147,
     10.04266797209862, 11.093589823222857, 12.022607103513186, 12.86249661899535,
     13.354904459499602, 13.724041242773945, 14.257378290235337, 14.788800154686601,
     18.486280383775178, 18.846833230822213, 19.23595396068166, 19.684155602843934,
     19.932799502244727, 20.3874846291001, 20.70260080807233, 20.939229104123548],
    [-3.8606705155877923, -3.7374141463497432, -2.7517835012555767, -0.784754511509069,
     0.9182397301384075, 2.1587766361189256, 3.3809562340538446, 4.671118600232297,
     5.7827067630694104, 6.776225008724735, 6.785317111405539, 8.596946417198012,
     9.724734040135687, 10.715873419477015, 11.663579711812497, 12.431055534492145,
     12.805213957635019, 13.040033711188144, 13.73194348908802, 14.112396519715345,
     17.820287392613643, 18.215947108725977, 18.661798350956563, 18.924539739708138,
     19.32455433127137, 19.72116420690463, 19.9189584578034, 20.303483388932367],
    [-4.030563792043039, -3.9851101430143405, -3.008444527257178, -1.052989905778238,
     0.7727746322333086, 1.9097672228292046, 2.9920385807365784, 4.386188952870244,
     5.542966440987047, 6.506459064674656, 6.520111252556074, 8.175350936777773,
     9.381598061781997, 10.36699257332786, 11.263048326859284, 11.935182426222578,
     12.44661082629408, 12.783066832432144, 13.305508542998302, 13.774432251598544,
     17.43428648820475, 17.808567152448315, 18.095404033230714, 18.69964336457477,
     18.968022461483216, 19.600000591397535, 19.867050890697726, 20.290924475844236],
    [-4.105084990194513, -4.077505952944178, -3.1009863163626425, -1.1532462117323055,
     0.6133388743501336, 1.7902665592482576, 2.873316777577066, 4.008200555699199,
     5.212516200919468, 6.150098871423047, 6.171711942664636, 7.9185942583613365,
     8.982408471074036, 9.959833276107503, 10.910419554256938, 11.735390058054767,
     11.989571607677272, 12.49154976991647, 12.920347950473333, 13.56175722111505,
     17.260748764025884, 17.817299980642012, 18.3406525199341, 18.81176441614153,
     19.17161104900126, 19.72590413543843, 19.948385513864093, 20.494637108533304]],
   [[-3.8606705155877923, -3.7374141463497432, -2.7517835012555767, -0.784754511509069,
     0.9182397301384075, 2.1587766361189256, 3.3809562340538446, 4.671118600232297,
     5.7827067630694104, 6.776225008724735, 6.785317111405539, 8.596946417198012,
     9.724734040135687, 10.715873419477015, 11.663579711812497, 12.431055534492145,
     12.805213957635019, 13.040033711188144, 13.73194348908802, 14.112396519715345,
     17.820287392613643, 18.215947108725977, 18.661798350956563, 18.924539739708138,
     19.32455433127137, 19.72116420690463, 19.9189584578034, 20.303483388932367],
    [-4.105084990194513, -4.077505952944178, -3.1009863163626425, -1.1532462117323055,
     0.6133388743501336, 1.7902665592482576, 2.873316777577066, 4.008200555699199,
     5.212516200919468, 6.150098871423047, 6.171711942664636, 7.9185942583613365,
     8.982408471074036, 9.959833276107503, 10.910419554256938, 11.735390058054767,
     11.989571607677272, 12.49154976991647, 12.920347950473333, 13.56175722111505,
     17.260748764025884, 17.817299980642012, 18.3406525199341, 18.81176441614153,
     19.17161104900126, 19.72590413543843, 19.948385513864093, 20.494637108533304],
    [-4.249512777163352, -4.234049168632293, -3.2743519507638514, -1.3639460338793166,
     0.31422726620832264, 1.4848190879612184, 2.5987454774671224, 3.7832134121134167,
     4.856325573897866, 5.816997251128095, 5.8251693746252515, 7.627994691882747,
     8.711222755659692, 9.67488343412283, 10.607831868642462, 11.505312400397901,
     11.910191848032474, 12.441178203409297, 12.983579582251275, 13.750898204877537,
     17.539827021231563, 17.939744709499653, 18.587991394881843, 18.926717878130834,
     19.46205064427316, 19.862140761828886, 20.17616299256312, 20.6873507906318],
    [-4.382701182230088, -4.380258488359107, -3.439595855714956, -1.6216207679427197,
     -0.04243535982577447, 1.1322043005265325, 2.27836168226525, 3.5513926077996016,
     4.61423832231309, 5.558059995205049, 5.571064581363377, 7.252573807293473,
     8.509039344128842, 9.668383910749707, 10.742815711263269, 11.658650216114495,
     11.981085119874201, 12.610251306959054, 13.210325469184209, 13.838384928089598,
     17.673944513777908, 18.016183752069626, 18.71383216157812, 18.995211575669305,
     19.620983185034422, 19.933405621557128, 20.398998951035004, 20.793490925585452]],
   [[-4.105084990194513, -4.077505952944178, -3.1009863163626425, -1.1532462117323055,
     0.6133388743501336, 1.7902665592482576, 2.873316777577066, 4.008200555699199,
     5.212516200919468, 6.150098871423047, 6.171711942664636, 7.9185942583613365,
     8.982408471074036, 9.959833276107503, 10.910419554256938, 11.735390058054767,
     11.989571607677272, 12.49154976991647, 12.920347950473333, 13.56175722111505,
     17.260748764025884, 17.817299980642012, 18.3406525199341, 18.81176441614153,
     19.17161104900126, 19.72590413543843, 19.948385513864093, 20.494637108533304],
    [-4.382701182230088, -4.380258488359107, -3.439595855714956, -1.6216207679427197,
     -0.04243535982577447, 1.1322043005265325, 2.27836168226525, 3.5513926077996016,
     4.61423832231309, 5.558059995205049, 5.571064581363377, 7.252573807293473,
     8.509039344128842, 9.668383910749707, 10.742815711263269, 11.658650216114495,
     11.981085119874201, 12.610251306959054, 13.210325469184209, 13.838384928089598,
     17.673944513777908, 18.016183752069626, 18.71383216157812, 18.995211575669305,
     19.620983185034422, 19.933405621557128, 20.398998951035004, 20.793490925585452],
    [-4.710848426944306, -4.741065185780676, -3.935157560324684, -2.0753597121599707,
     -0.30351174805936976, 0.7990261752189952, 1.8355714379708619, 2.948545590994199,
     4.249063787060786, 5.444759996567604, 5.46060020486477, 7.369303551555811,
     8.709648533420337, 9.818589224917229, 10.866193876050847, 11.804155715116737,
     12.294445847726855, 12.765676592709896, 13.489004995193927, 13.94516389879777,
     17.819798110245955, 18.370913794093426, 18.844278826687397, 19.326458716893374,
     19.770811467302888, 20.099987496786405, 20.61562687581506, 20.89836866187134],
    [-5.028923045707085, -5.059829090582131, -4.129658140318148, -2.246093653921667,
     -0.6521500409812404, 0.5340163612815949, 1.7231876130447343, 2.9944993244698876,
     4.465834737800804, 5.605380287634894, 5.617556975570465, 7.5426112845336375,
     8.807440312394835, 9.898481340392465, 10.94317718493589, 11.887541285074954,
     12.480269475352955, 12.85586108738895, 13.634295270228034, 14.003943482077796,
     17.89321431864526, 18.532391297584958, 18.91444354751071, 19.50984188699186,
     19.855557902687906, 20.32852328042192, 20.729846317340044, 20.961341647367988]]]

/-- `MCS_SINR[1]`. -/
def mcsSinrQam256 : List (List (List ℚ)) :=
  [[[-3.766204655135171, -2.3990650886392424, 1.5522568795244887, 4.564803272325501,
     6.338672664032404, 8.542230780282905, 9.559674825861055, 10.298383290118426,
     10.943428016730339, 11.68264798019837, 12.02824992119355, 14.392351442130796,
     14.932994026223826, 15.552401510007101, 15.955514892291184, 16.591413604484522,
     17.179624951827346, 17.974954768699185, 18.912794302132625, 20.077379889608988,
     21.60907756072346, 21.891147057127306, 22.589197416381353, 23.29774557040868,
     24.178142581589526, 25.265145634024716, 26.102498256292098, 27.103271612090293],
    [-3.6326702876511723, -2.385540826650082, 1.4859375422360626, 4.432362199970879,
     6.0904039303313136, 8.334946435887488, 9.323325905656874, 9.974224917155993,
     10.766562196834641, 11.39368303136947, 11.814127694180803, 14.005239766543646,
     14.729867317253637, 15.197557752602426, 15.714889913102896, 16.177316538101394,
     16.856608722556373, 17.719077152659338, 18.62611482904098, 19.776709478339928,
     21.15567807771223, 21.597264739853575, 22.081592079332303, 22.86424783579969,
     23.786767596742376, 24.821419228796437, 25.765433731320577, 26.74621759475889],
    [-3.63626465759799, -2.4314024549390147, 1.3882653991619347, 4.277852963801987,
     5.9364861248052545, 8.080118335611605, 9.034263874565868, 9.861330110450089,
     10.592961037814808, 11.091560333926566, 11.645296999920461, 13.857040910624322,
     14.51998928622917, 14.922628257586565, 15.471775023161367, 15.904847934385977,
     16.635226824344738, 17.45380558993771, 18.357801939951212, 19.509534317986446,
     20.87773122551552, 21.231922124258997, 21.84682720746634, 22.609393798752322,
     23.502842316657404, 24.56383262769635, 25.442676986425322, 26.422820437186264],
    [-3.6692141964854903, -2.48141208679468, 1.28108839802983, 4.109040230862857,
     5.850388700546342, 7.939173517821128, 8.918388267887906, 9.74014524059784,
     10.41084661871306, 10.917975492142553, 11.46109570056667, 13.724041242773945,
     14.257378290235337, 14.788800154686601, 15.249634801282905, 15.76723384895627,
     16.39496843328804, 17.11576081654499, 17.983593578083575, 19.1921872913054,
     20.70260080807233, 20.939229104123548, 21.641921533350757, 22.329454139016345,
     23.132588107118075, 24.193354840284158, 25.002853564861837, 25.99482054407014]],
   [[-3.6326702876511723, -2.385540826650082, 1.4859375422360626, 4.432362199970879,
     6.0904039303313136, 8.334946435887488, 9.323325905656874, 9.974224917155993,
     10.766562196834641, 11.39368303136947, 11.814127694180803, 14.005239766543646,
     14.729867317253637, 15.197557752602426, 15.714889913102896, 16.177316538101394,
     16.856608722556373, 17.719077152659338, 18.62611482904098, 19.776709478339928,
     21.15567807771223, 21.597264739853575, 22.081592079332303, 22.86424783579969,
     23.786767596742376, 24.821419228796437, 25.765433731320577, 26.74621759475889],
    [-3.6692141964854903, -2.48141208679468, 1.28108839802983, 4.109040230862857,
     5.850388700546342, 7.939173517821128, 8.918388267887906, 9.74014524059784,
     10.41084661871306, 10.917975492142553, 11.46109570056667, 13.724041242773945,
     14.257378290235337, 14.788800154686601, 15.249634801282905, 15.76723384895627,
     16.39496843328804, 17.11576081654499, 17.983593578083575, 19.1921872913054,
     20.70260080807233, 20.939229104123548, 21.641921533350757, 22.329454139016345,
     23.132588107118075, 24.193354840284158, 25.002853564861837, 25.99482054407014],
    [-3.7526239385493843, -2.6071885279081646, 1.0449801498008524, 3.926382507019017,
     5.6827930665053685, 7.7790389568996225, 8.7508155959782, 9.5041698743072,
     9.98417274179451, 10.74884296725871, 10.995242974831438, 13.419511254555422,
     13.912938821703866, 14.498781390072216, 14.878704425676624, 15.413792222384568,
     15.948399948190787, 16.81586711440216, 17.737037260102184, 18.829720653261393,
     20.281648203256697, 20.66347373923985, 21.13213802026867, 21.88309292578569,
     22.798192843986556, 23.818397538259962, 24.73503002463166, 25.717312972162215],
    [-3.8606705155877923, -2.7517835012555767, 0.9182397301384075, 3.8119574787179493,
     5.509550310600034, 7.632778944723678, 8.575539214341196, 9.189604268417662,
     9.849447578032835, 10.520925417126746, 10.854430462416822, 13.040033711188144,
     13.73194348908802, 14.112396519715345, 14.674794063913994, 14.995231160100083,
     15.747887376252425, 16.572267826563795, 17.434864742876243, 18.59688302985767,
     19.9189584578034, 20.303483388932367, 20.868550745512806, 21.660602671627828,
     22.578800934014982, 23.689833215463068, 24.634378030544863, 25.660723139284688]],
   [[-3.6692141964854903, -2.48141208679468, 1.28108839802983, 4.109040230862857,
     5.850388700546342, 7.939173517821128, 8.918388267887906, 9.74014524059784,
     10.41084661871306, 10.917975492142553, 11.46109570056667, 13.724041242773945,
     14.257378290235337, 14.788800154686601, 15.249634801282905, 15.76723384895627,
     16.39496843328804, 17.11576081654499, 17.983593578083575, 19.1921872913054,
     20.70260080807233, 20.939229104123548, 21.641921533350757, 22.329454139016345,
     23.132588107118075, 24.193354840284158, 25.002853564861837, 25.99482054407014],
    [-3.8606705155877923, -2.7517835012555767, 0.9182397301384075, 3.8119574787179493,
     5.509550310600034, 7.632778944723678, 8.575539214341196, 9.189604268417662,
     9.849447578032835, 10.520925417126746, 10.854430462416822, 13.040033711188144,
     13.73194348908802, 14.112396519715345, 14.674794063913994, 14.995231160100083,
     15.747887376252425, 16.572267826563795, 17.434864742876243, 18.59688302985767,
     19.9189584578034, 20.303483388932367, 20.868550745512806, 21.660602671627828,
     22.578800934014982, 23.689833215463068, 24.634378030544863, 25.660723139284688],
    [-4.030563792043039, -3.008444527257178, 0.7727746322333086, 3.5990901876879717,
     5.10360223057708, 7.219373824199977, 8.104342124580118, 8.860250357976238,
     9.567503088893801, 9.972038301503488, 10.525750817427173, 12.783066832432144,
     13.305508542998302, 13.774432251598544, 14.127648286257752, 14.714720715765715,
     15.266440501122817, 16.08255446052705, 17.02436494753045, 18.434629478269247,
     19.867050890697726, 20.290924475844236, 20.91589705403704, 21.785910420562825,
     22.759183905023395, 23.839416709677234, 24.801152682868892, 25.822594526651496],
    [-4.105084990194513, -3.1009863163626425, 0.6133388743501336, 3.3673061154266177,
     4.883892410373938, 6.931719080770243, 7.879478363531106, 8.639489261408189,
     9.133111641441616, 9.784850784481936, 10.080551050392799, 12.49154976991647,
     12.920347950473333, 13.56175722111505, 13.96688959384366, 14.723213526157135,
     15.469453263839343, 16.333748867701953, 17.294180453056388, 18.594037070977187,
     19.948385513864093, 20.494637108533304, 20.987345395267024, 21.87615051409276,
     22.85340278760674, 23.91974462334538, 24.884648622478, 25.90015823435961]],
   [[-3.8606705155877923, -2.7517835012555767, 0.9182397301384075, 3.8119574787179493,
     5.509550310600034, 7.632778944723678, 8.575539214341196, 9.189604268417662,
     9.849447578032835, 10.520925417126746, 10.854430462416822, 13.040033711188144,
     13.73194348908802, 14.112396519715345, 14.674794063913994, 14.995231160100083,
     15.747887376252425, 16.572267826563795, 17.434864742876243, 18.59688302985767,
     19.9189584578034, 20.303483388932367, 20.868550745512806, 21.660602671627828,
     22.578800934014982, 23.689833215463068, 24.634378030544863, 25.660723139284688],
    [-4.105084990194513, -3.1009863163626425, 0.6133388743501336, 3.3673061154266177,
     4.883892410373938, 6.931719080770243, 7.879478363531106, 8.639489261408189,
     9.133111641441616, 9.784850784481936, 10.080551050392799, 12.49154976991647,
     12.920347950473333, 13.56175722111505, 13.96688959384366, 14.723213526157135,
     15.469453263839343, 16.333748867701953, 17.294180453056388, 18.594037070977187,
     19.948385513864093, 20.494637108533304, 20.987345395267024, 21.87615051409276,
     22.85340278760674, 23.91974462334538, 24.884648622478, 25.90015823435961],
    [-4.249512777163352, -3.2743519507638514, 0.31422726620832264, 2.918715911180605,
     4.6049508856631025, 6.646555932502794, 7.53788798710232, 8.026731398963081,
     8.796351731949764, 9.572982746078296, 9.940278212960582, 12.441178203409297,
     12.983579582251275, 13.750898204877537, 14.257946333009574, 14.863965887144207,
     15.675030723151753, 16.576328685349733, 17.54489564429345, 18.76299251480573,
     20.17616299256312, 20.6873507906318, 21.315482843940938, 21.97622497980401,
     22.956353133105, 24.058208300538208, 24.98316743519975, 25.997876696957842],
    [-4.382701182230088, -3.439595855714956, -0.04243535982577447, 2.747999286904385,
     4.17180202078401, 6.2737777303316395, 7.2431127732715765, 7.9972917218877315,
     8.889783735888292, 9.708366397141106, 10.026744789177695, 12.610251306959054,
     13.210325469184209, 13.838384928089598, 14.453139452166063, 14.933152199529301,
     15.780502983458188, 16.704899589960313, 17.68255920574627, 18.847818203605524,
     20.398998951035004, 20.793490925585452, 21.49745531005578, 22.16907774689575,
     23.083999157477084, 24.303550589336133, 25.186668937057817, 26.23723721780597]],
   [[-4.105084990194513, -3.1009863163626425, 0.6133388743501336, 3.3673061154266177,
     4.883892410373938, 6.931719080770243, 7.879478363531106, 8.639489261408189,
     9.133111641441616, 9.784850784481936, 10.080551050392799, 12.49154976991647,
     12.920347950473333, 13.56175722111505, 13.96688959384366, 14.723213526157135,
     15.469453263839343, 16.333748867701953, 17.294180453056388, 18.594037070977187,
     19.948385513864093, 20.494637108533304, 20.987345395267024, 21.87615051409276,
     22.85340278760674, 23.91974462334538, 24.884648622478, 25.90015823435961],
    [-4.382701182230088, -3.439595855714956, -0.04243535982577447, 2.747999286904385,
     4.17180202078401, 6.2737777303316395, 7.2431127732715765, 7.9972917218877315,
     8.889783735888292, 9.708366397141106, 10.026744789177695, 12.610251306959054,
     13.210325469184209, 13.838384928089598, 14.453139452166063, 14.933152199529301,
     15.780502983458188, 16.704899589960313, 17.68255920574627, 18.847818203605524,
     20.398998951035004, 20.793490925585452, 21.49745531005578, 22.16907774689575,
     23.083999157477084, 24.303550589336133, 25.186668937057817, 26.23723721780597],
    [-4.710848426944306, -3.935157560324684, -0.30351174805936976, 2.2404832154325134,
     3.890472099001659, 6.382000865269399, 7.523161356216156, 8.342287821516951,
     8.981198955876218, 9.837757565060006, 10.370526654702386, 12.765676592709896,
     13.489004995193927, 13.94516389879777, 14.661359628764528, 15.111561187955703,
     15.89172964906817, 16.83219167221295, 17.81326100893769, 18.94376910816588,
     20.61562687581506, 20.89836866187134, 21.68770796783812, 22.471379027633017,
     23.40118822752014, 24.55024246894561, 25.475347858799854, 26.513750048620018],
    [-5.028923045707085, -4.129658140318148, -0.6521500409812404, 1.9774519074159502,
     3.9647042084370576, 6.550374209292776, 7.657044558272517, 8.520704158068556,
     9.206174105852838, 9.912980758157527, 10.53708361443197, 12.85586108738895,
     13.634295270228034, 14.003943482077796, 14.762153244082276, 15.330459969790756,
     15.953592036313625, 16.9031713584252, 17.888263929637333, 18.998319737558553,
     20.729846317340044, 20.961341647367988, 21.782015378652375, 22.60581876731638,
     23.56076084312933, 24.674990243950784, 25.613182344248326, 26.639333151949803]]]

/-- `MCS_SINR`. -/
def mcsSinr : Modulation → List (List (List ℚ))
  | .qam64 => mcsSinrQam64
  | .qam256 => mcsSinrQam256

end NetworkEmulator
